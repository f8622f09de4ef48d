/-
The echo service (service.h, service.cpp): accepted connections, the
list that owns them, and the callbacks libev delivers to either.

A `serviceinstance *` is the position of its connection in `conns`,
which only ever grows: `conns` is the memory of all instances ever
made, `mInstance` the service's own list of pointers into it. Nothing
in the source takes an entry out of `m_instance`.

`accept` answers an error or a descriptor above 0: `serviceinstance`'s
constructor passes it to `net::setnonblocking`, whose
`assert(fd > 0)` ends the process on anything else, so no state follows
such an answer.
-/
import TrashyServer.Echo.Model

namespace TrashyServer.Echo

/-- `service`, with every instance it ever made. `stopped` once libev has
stopped the watcher of the listening socket, `down` once `~service` has
run. -/
structure Service where
  mInstance : List Nat
  conns : List Conn
  stopped : Bool
  down : Bool

/-- One thing the outside world can make the service do. -/
inductive ServiceEvent
  /-- `listen_accept` runs, with `revents`' error flag and `accept`'s
  answer. -/
  | listenAccept (evError : Bool) (fd : Option {fd : Nat // 0 < fd})
  /-- The watcher of an instance fires. -/
  | callback (i : Nat) (e : Event)
  /-- `run` has returned and `~service` runs. -/
  | shutdown

namespace Service

/-- `service(port)`. -/
def new : Service := ⟨[], [], false, false⟩

/-- `listen_accept`. On an error it returns at once. -/
def listenAccept (s : Service) (evError : Bool)
    (fd : Option {fd : Nat // 0 < fd}) : Service :=
  if evError then { s with stopped := true }
  else
    match fd with
    | none => s
    | some fd =>
        { s with
          conns := s.conns ++ [Conn.new fd.val]
          mInstance := s.mInstance ++ [s.conns.length] }

/-- `delete i` for each pointer of a list. -/
def deleteAll (is : List Nat) (conns : List Conn) : List Conn :=
  is.foldl (fun cs i => cs.modify i Conn.destroy) conns

/-- `~service`. -/
def destroy (s : Service) : Service :=
  { s with conns := deleteAll s.mInstance s.conns, down := true }

/-- One event. Nothing happens to a service that is gone, nor to an
instance that has stopped its watcher. -/
def step (s : Service) (ev : ServiceEvent) : Option Service :=
  if s.down then none
  else
    match ev with
    | .listenAccept evError fd => some (s.listenAccept evError fd)
    | .callback i e =>
        match s.conns[i]? with
        | none => none
        | some c =>
            (c.step e).map fun c' => { s with conns := s.conns.set i c' }
    | .shutdown => some s.destroy

end Service

end TrashyServer.Echo
