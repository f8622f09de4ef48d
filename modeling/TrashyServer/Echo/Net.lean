/-
The load client and the echo service over TCP: who may do what when,
and what is on the wire in between.

`wires` holds, for each connection the client has made, the bytes
written on either side and not yet read on the other. Connections are
accepted in the order they were made, so connection `i` of the client
is instance `i` of the service.

# What the kernel promises

`recv` answers with bytes from the front of what is on the wire, with
end of file once the other side has closed and everything was read, or
with an error at any time (`answers`): a reset may come in between,
after which what is on the wire is never read. `send` and `write` put
what they take behind what is on the wire. Neither epoll nor libev
reports what a descriptor is not watched for, and libev calls no watcher
back that it has stopped.

A step is one of the two parties handling one event, so a run is any
interleaving of the client, the service's callbacks on any number of
connections, and the connections being made and accepted.
-/
import TrashyServer.Echo.Client
import TrashyServer.Echo.Service

namespace TrashyServer.Echo

-- ================================================================ the wire

/-- What is on the wire of one connection, either way. -/
structure Wire where
  toService : Str
  toClient : Str
deriving DecidableEq

/-- What `recv` can answer on a wire with `stream` on it. -/
def answers (stream : Str) (closed : Bool) : Option Str → Bool
  | none => true
  | some d => if d.isEmpty then closed && stream.isEmpty else d.isPrefixOf stream

/-- The client has read and written. -/
def Wire.peerMoved (w : Wire) (p p' : Peer) : Wire :=
  ⟨w.toService ++ p'.sent.drop p.sent.length,
    w.toClient.drop (p'.received.length - p.received.length)⟩

/-- The service has read and written. -/
def Wire.connMoved (w : Wire) (c c' : Conn) : Wire :=
  ⟨w.toService.drop (c'.received.length - c.received.length),
    w.toClient ++ c'.sent.drop c.sent.length⟩

-- ============================================================== the network

/-- Both parties and what is between them. -/
structure Net where
  client : Client
  service : Service
  wires : List Wire

/-- One thing that can happen. -/
inductive NetEvent
  /-- A round of `start_conn`. -/
  | startConn (socketOk connectOk : Bool)
  /-- `listen_accept` runs. -/
  | accept (evError : Bool) (fd : Option {fd : Nat // 0 < fd})
  /-- The client handles an event of a connection. -/
  | peer (i : Nat) (ev : PollEvent)
  /-- The watcher of an instance fires. -/
  | callback (i : Nat) (e : Event)
  /-- The service returns from `run`, and `~service` runs. -/
  | shutdown

/-- The loop calls back for what the watcher waits for, or to report an
error. -/
def Event.due (e : Event) (events : EvSet) : Bool :=
  e.evError || (!e.evRead || events.read) && (!e.evWrite || events.write)

namespace Net

/-- Before the first connection: the client will try `nums` of them. -/
def new (nums : Nat) (buff : Buff) : Net := ⟨Client.new nums buff, Service.new, []⟩

/-- The instance that serves connection `i`. One that was not accepted
yet has seen what a new one has. -/
def inst (n : Net) (i : Nat) : Conn := n.service.conns[i]?.getD (Conn.new 0)

/-- The service has closed its end of connection `i`. -/
def instClosed (n : Net) (i : Nat) : Bool := (n.inst i).destroyed != 0

/-- The client handles an event. -/
def peerStep (n : Net) (i : Nat) (ev : PollEvent) (p : Peer) (w : Wire) :
    Option Net :=
  match p.interest with
  | none => none
  | some events =>
      if ev.reported events
          && (!ev.epollin
            || answers w.toClient (n.instClosed i) (ev.recv.map Subtype.val))
      then
        let (buff, p') := Client.serve n.client.buff p ev
        some { n with
          client := { n.client with buff := buff, peers := n.client.peers.set i p' }
          wires := n.wires.set i (w.peerMoved p p') }
      else none

/-- The service runs a callback. -/
def connStep (n : Net) (i : Nat) (e : Event) (p : Peer) (w : Wire) (c : Conn) :
    Option Net :=
  match c.mIo with
  | none => none
  | some events =>
      if !c.stopped && e.due events
          && (!e.reads
            || answers w.toService p.interest.isNone (e.recv.map Subtype.val))
      then
        (n.service.step (.callback i e)).map fun s =>
          { n with
            service := s
            wires := n.wires.set i (w.connMoved c (c.callback e)) }
      else none

/-- One step of the network. -/
def step (n : Net) : NetEvent → Option Net
  | .startConn socketOk connectOk =>
      if n.client.left = 0 then none
      else some { n with
        client := n.client.startConn socketOk connectOk
        wires := if socketOk && connectOk then n.wires ++ [⟨[], []⟩] else n.wires }
  | .accept evError fd =>
      if n.service.stopped || !evError && fd.isSome
          && n.client.peers.length ≤ n.service.conns.length then none
      else
        (n.service.step (.listenAccept evError fd)).map fun s =>
          { n with service := s }
  | .peer i ev =>
      if n.client.left = 0 then
        match n.client.peers[i]?, n.wires[i]? with
        | some p, some w => n.peerStep i ev p w
        | _, _ => none
      else none
  | .callback i e =>
      match n.client.peers[i]?, n.wires[i]?, n.service.conns[i]? with
      | some p, some w, some c => n.connStep i e p w c
      | _, _, _ => none
  | .shutdown => (n.service.step .shutdown).map fun s => { n with service := s }

end Net

end TrashyServer.Echo
