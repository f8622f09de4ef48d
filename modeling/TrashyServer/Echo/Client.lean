/-
The load client of the echo service (src/lib/test_connection.cpp).

`main` first makes its connections (`start_conn`), then takes one epoll
event after the other. Every connection goes through the one array
`buff`, which nothing initialises: what was read from one connection is
what is written to the next.

# The environment

Of an event that `epoll_wait` reports the client reads the flags
(`PollEvent`); the answers of `recv` and `send`, should it ask, come
with it. `recv` answers an error, or at most as many bytes as it was
asked for, none being end of file. `sends` is the room the socket has
at each call of `send` (`sysWrite`), an error where the list ends, so
that every sequence of answers is some event's.

A descriptor is the position of its connection in `peers`. After
`close_conn` the descriptor is closed and out of the interest list, and
`EPOLL_CTL_MOD` on it fails with no effect: `interest` is `none`.

Beside its interest a connection carries a ledger that no statement of
the source reads: the bytes in and out, and how many calls of
`read_once` and of `write_bytes` have returned true.
-/
import TrashyServer.Echo.Model

namespace TrashyServer.Echo

-- ============================================================== the array

/-- The size of `buff`. -/
def buffSize : Nat := 1024

/-- `char buff[1024]`. -/
abbrev Buff := {bs : Str // bs.length = buffSize}

/-- What one `recv` into `buff` can return. -/
abbrev Received := {bs : Str // bs.length ≤ buffSize}

/-- `memset(buff, 0, size)`, and `d` stored in front. -/
def Buff.holding (d : Received) : Buff :=
  ⟨d.val ++ List.replicate (buffSize - d.val.length) nul, by
    have hle := d.property
    rw [List.length_append, List.length_replicate]
    omega⟩

/-- `read_once`: the array is cleared before `recv` is asked. -/
def readOnce (recv : Option Received) : Bool × Buff :=
  match recv with
  | none => (false, Buff.holding ⟨[], Nat.zero_le _⟩)
  | some d => (!d.val.isEmpty, Buff.holding d)

/-- `write_bytes`: what it returns, and the bytes `send` has taken. -/
def writeBytes : List (Option Nat) → Str → Bool × Str
  | [], _ => (false, [])
  | room :: sends, buff =>
      match sysWrite room buff.length with
      | none => (false, [])
      | some ⟨size, _⟩ =>
          if size = 0 then (false, [])
          else if buff.length ≤ size then (true, buff.take size)
          else
            let rest := writeBytes sends (buff.drop size)
            (rest.1, buff.take size ++ rest.2)

-- ========================================================== the connections

/-- What a connection is watched for, beside errors. -/
structure Interest where
  epollin : Bool
  epollout : Bool
deriving DecidableEq

/-- One connection of the client, with its ledger. -/
structure Peer where
  interest : Option Interest
  received : Str
  sent : Str
  reads : Nat
  writes : Nat
deriving DecidableEq

namespace Peer

/-- `addfd`. -/
def addfd : Peer := ⟨some ⟨true, true⟩, [], [], 0, 0⟩

/-- `close_conn`. -/
def closeConn (p : Peer) : Peer := { p with interest := none }

/-- `epoll_ctl(epollfd, EPOLL_CTL_MOD, connfd, &event)`. -/
def mod (p : Peer) (events : Interest) : Peer :=
  { p with interest := p.interest.map fun _ => events }

/-- What a call of `read_once` that returns true has brought. -/
def tookIn (p : Peer) (bs : Str) : Peer :=
  { p with received := p.received ++ bs, reads := p.reads + 1 }

/-- What a call of `write_bytes` has put out. -/
def putOut (p : Peer) (ok : Bool) (bs : Str) : Peer :=
  { p with
    sent := p.sent ++ bs
    writes := if ok then p.writes + 1 else p.writes }

end Peer

/-- One event that `epoll_wait` reports, and what the calls it leads to
answer. -/
structure PollEvent where
  epollin : Bool
  epollout : Bool
  epollerr : Bool
  recv : Option Received
  sends : List (Option Nat)

/-- An event is reported only if the connection is watched for it. -/
def PollEvent.reported (ev : PollEvent) (events : Interest) : Bool :=
  (!ev.epollin || events.epollin) && (!ev.epollout || events.epollout)

-- ================================================================ the client

/-- The client: the rounds of `start_conn` still to come, the array, and
the connections. -/
structure Client where
  left : Nat
  buff : Buff
  peers : List Peer

namespace Client

/-- `main`, before `start_conn`. -/
def new (nums : Nat) (buff : Buff) : Client := ⟨nums, buff, []⟩

/-- One round of `start_conn`. -/
def startConn (c : Client) (socketOk connectOk : Bool) : Client :=
  if socketOk && connectOk then
    { c with left := c.left - 1, peers := c.peers ++ [Peer.addfd] }
  else { c with left := c.left - 1 }

/-- The body of the event loop, on one connection: the array and the
connection behind it. -/
def serve (buff : Buff) (p : Peer) (ev : PollEvent) : Buff × Peer :=
  if ev.epollin then
    let (ok, buff) := readOnce ev.recv
    let p := if ok then p.tookIn ((ev.recv.map Subtype.val).getD [])
      else p.closeConn
    (buff, p.mod ⟨false, true⟩)
  else if ev.epollout then
    let (ok, taken) := writeBytes ev.sends buff.val
    let p := p.putOut ok taken
    let p := if ok then p else p.closeConn
    (buff, p.mod ⟨true, false⟩)
  else if ev.epollerr then (buff, p.closeConn)
  else (buff, p)

end Client

end TrashyServer.Echo
