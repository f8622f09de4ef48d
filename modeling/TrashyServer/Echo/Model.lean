/-
One connection of the echo service (service.h, service.cpp): the
buffer queue, the watcher, and `serviceinstance::callback`.

# The environment

A callback is driven by an `Event`: the `revents` flags libev++ passes,
the answer of `recv` should `read_cb` ask (`none` for an error, the
empty chunk for end of file), and the room the socket has should
`write_cb` write (`none` for an error). The kernel takes
`min room offered`, so every answer between 0 and the bytes offered is
some event's answer and no event answers more.

Of libev++ the model assumes what its manual says: `io::set(events)`
replaces the event set of an active watcher, `start(fd, READ)` sets it
to `READ`, `stop` deactivates it, and a watcher stopped by `stop` is not
called back (`step`).

With `EV_ERROR` libev reports that it has itself stopped the watcher, and
nothing in `callback` starts it again: `stopped`. What is said of one
connection is said of any callbacks and does not ask whether libev makes
them, so `step` does not look at `stopped`; the loop of the network
(Net.lean) does.

# The ledger

Beside the three fields of the class a connection carries a ledger no
statement of the source reads: the bytes in and out, the `mbuffer`s
made by `new` (numbered by `ticket`) and those released by `delete`,
whether libev has stopped the watcher, how often `~serviceinstance` ran,
and each piece of `callback` that ran on `this` after it did. A piece running on a destroyed object is
undefined behaviour; the model records it and changes nothing else.
-/
import TrashyServer.Str
import TrashyServer.Lib.Runs

namespace TrashyServer.Echo

-- =========================================================== the buffers

/-- `M_MAXSIZE`, the size of `read_cb`'s buffer. -/
def mMaxsize : Nat := 1024

/-- `mbuffer`: a received chunk and the cursor up to which it has been
written. `ticket` numbers the `new mbuffer`s of one connection. -/
structure MBuffer where
  ticket : Nat
  data : Str
  len : Nat
  curs : Nat
  len_eq : len = data.length
  curs_le : curs ≤ len

namespace MBuffer

/-- `mbuffer(bytes, nbytes)`. -/
def new (ticket : Nat) (bytes : Str) : MBuffer :=
  ⟨ticket, bytes, bytes.length, 0, rfl, Nat.zero_le _⟩

/-- `nbytes()`: how many bytes are left to write. -/
def nbytes (b : MBuffer) : Nat := b.len - b.curs

/-- The bytes left to write, those from `dpos()` on. -/
def dpos (b : MBuffer) : Str := b.data.drop b.curs

/-- `curs += wsize`, for a write that took no more than it was
offered. -/
def advance (b : MBuffer) (wsize : Nat) (h : wsize ≤ b.nbytes) : MBuffer :=
  { b with
    curs := b.curs + wsize
    curs_le := by
      have := b.curs_le
      unfold nbytes at h
      omega }

@[simp] theorem dpos_length (b : MBuffer) : b.dpos.length = b.nbytes := by
  rw [dpos, List.length_drop, nbytes, b.len_eq]

@[simp] theorem dpos_new (t : Nat) (bs : Str) : (new t bs).dpos = bs := rfl

@[simp] theorem dpos_advance (b : MBuffer) (n : Nat) (h : n ≤ b.nbytes) :
    (b.advance n h).dpos = b.dpos.drop n := by
  simp only [dpos, advance, List.drop_drop]

@[simp] theorem nbytes_advance (b : MBuffer) (n : Nat) (h : n ≤ b.nbytes) :
    (b.advance n h).nbytes = b.nbytes - n := by
  simp only [nbytes, advance]
  omega

end MBuffer

-- ======================================================== the environment

/-- What one `recv` into `buff` can return: at most `sizeof(buff)`
bytes. -/
abbrev Chunk := {bs : Str // bs.length ≤ mMaxsize}

/-- One callback: libev's `revents`, and what the calls it makes
answer. -/
structure Event where
  evError : Bool
  evRead : Bool
  evWrite : Bool
  recv : Option Chunk
  room : Option Nat

/-- `write(fd, p, n)` on the non-blocking socket: an error, or as many
of the `n` bytes as there is room for. -/
def sysWrite (room : Option Nat) (n : Nat) : Option {k : Nat // k ≤ n} :=
  room.map fun r => ⟨min r n, Nat.min_le_right ..⟩

/-- The event set of a watcher. -/
structure EvSet where
  read : Bool
  write : Bool
deriving DecidableEq

/-- `ev::READ`. -/
def evSetRead : EvSet := ⟨true, false⟩

/-- `ev::READ | ev::WRITE`. -/
def evSetReadWrite : EvSet := ⟨true, true⟩

-- ========================================================= the connection

/-- The pieces of `callback` that run on `this`. -/
inductive Piece
  | readCb
  | writeCb
  | rearm
deriving DecidableEq

/-- `serviceinstance`. The watcher's event set is `none` once the
instance has stopped it. -/
structure ServiceInstance where
  mFd : Nat
  mIo : Option EvSet
  mWlist : List MBuffer

/-- What has happened to a connection (see the module doc). -/
structure Ledger where
  received : Str
  sent : Str
  queued : Nat
  released : List Nat
  stopped : Bool
  destroyed : Nat
  afterDestroy : List Piece

/-- A connection with its ledger. -/
structure Conn extends ServiceInstance, Ledger

namespace Conn

/-- `serviceinstance(fd)`: the watcher starts on `READ`. -/
def new (fd : Nat) : Conn where
  mFd := fd
  mIo := some evSetRead
  mWlist := []
  received := []
  sent := []
  queued := 0
  released := []
  stopped := false
  destroyed := 0
  afterDestroy := []

/-- `m_io.set(events)`. -/
def setIo (c : Conn) (ev : EvSet) : Conn :=
  { c with mIo := c.mIo.map fun _ => ev }

/-- `~serviceinstance`: stop the watcher and close the descriptor. The
buffers still in `m_wlist` are not deleted. -/
def destroy (c : Conn) : Conn :=
  { c with mIo := none, destroyed := c.destroyed + 1 }

/-- `read_cb`. -/
def readCb (c : Conn) (recv : Option Chunk) : Conn :=
  match recv with
  | none => c
  | some rbuff =>
      if rbuff.val.length = 0 then
        c.destroy
      else
        { c with
          mWlist := c.mWlist ++ [MBuffer.new c.queued rbuff.val]
          received := c.received ++ rbuff.val
          queued := c.queued + 1 }

/-- `write_cb`. -/
def writeCb (c : Conn) (room : Option Nat) : Conn :=
  match c.mWlist with
  | [] => c.setIo evSetRead
  | buff :: rest =>
      match sysWrite room buff.nbytes with
      | none => c
      | some ⟨wsize, h⟩ =>
          let c := { c with sent := c.sent ++ buff.dpos.take wsize }
          let buff := buff.advance wsize h
          if buff.nbytes = 0 then
            { c with mWlist := rest, released := c.released ++ [buff.ticket] }
          else
            { c with mWlist := buff :: rest }

/-- The event set `callback` leaves behind: `READ`, with `WRITE` while
something is queued. -/
def wanted (wlist : List MBuffer) : EvSet :=
  if wlist.isEmpty then evSetRead else evSetReadWrite

/-- The end of `callback`. -/
def rearm (c : Conn) : Conn := c.setIo (wanted c.mWlist)

/-- Run one piece of `callback` on `this`, or record that `this` is
gone. -/
def onThis (c : Conn) (p : Piece) (k : Conn → Conn) : Conn :=
  if c.destroyed = 0 then k c
  else { c with afterDestroy := c.afterDestroy ++ [p] }

/-- `callback`. On an error it returns at once. -/
def callback (c : Conn) (e : Event) : Conn :=
  if e.evError then { c with stopped := true }
  else
    let c := if e.evRead then c.onThis .readCb (·.readCb e.recv) else c
    let c := if e.evWrite then c.onThis .writeCb (·.writeCb e.room) else c
    c.onThis .rearm rearm

/-- A callback on a watcher that the instance has not stopped. -/
def step (c : Conn) (e : Event) : Option Conn :=
  if c.mIo.isSome then some (c.callback e) else none

/-- The bytes queued and not yet written, in order: of each buffer its
data from `curs` to `len`. -/
def pending (c : Conn) : Str := c.mWlist.flatMap MBuffer.dpos

end Conn

/-- The calls of `recv` a callback makes. -/
def Event.reads (e : Event) : Bool := !e.evError && e.evRead

/-- The bytes `recv` gives a callback: nothing where it is not called,
fails or finds the end of file. -/
def Event.chunk (e : Event) : Str :=
  if e.reads then (e.recv.map Subtype.val).getD [] else []

/-- This callback reads end of file: `read_cb` runs and `recv` returns
0. -/
def Event.readsEof (e : Event) : Prop :=
  e.evError = false ∧ e.evRead = true ∧ ∃ r, e.recv = some r ∧ r.val = []

/-- A callback for `WRITE` alone whose write takes at least one byte of
what it is offered. -/
def Event.writeOnly (e : Event) : Prop :=
  e.evError = false ∧ e.evRead = false ∧ e.evWrite = true
    ∧ ∃ r, e.room = some r ∧ 1 ≤ r

end TrashyServer.Echo
