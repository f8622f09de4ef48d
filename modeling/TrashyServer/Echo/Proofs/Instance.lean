/-
The invariant of one connection, through every interleaving of reads,
partial writes, errors and end of file.

# The invariant

`Core` is what every piece of `callback` keeps:

- `conserve`: received is sent followed by pending;
- `unsent`: every queued buffer has bytes left, so `write` is never
  offered nothing;
- `tickets`: the buffers released so far, then those queued, are exactly
  the `new mbuffer`s in the order they were made — nothing released
  twice, nothing queued after its release.

`Rearmed` holds between callbacks only: the watcher of a live
connection waits for `WRITE` exactly while something is queued. The
early return on `EV_ERROR` leaves the event set alone, and every other path
through `callback` ends in `rearm`; no path in between has to
re-establish it, which is why the early returns of `read_cb` and
`write_cb` need no case of their own here.
-/
import TrashyServer.Echo.Model

namespace TrashyServer.Echo

open Runs

namespace Conn

-- ========================================================== the invariant

/-- What every piece of `callback` keeps. -/
structure Core (c : Conn) : Prop where
  conserve : c.received = c.sent ++ c.pending
  unsent : ∀ b ∈ c.mWlist, 0 < b.nbytes
  tickets : c.released ++ c.mWlist.map MBuffer.ticket = List.range c.queued

/-- The watcher is active exactly on a connection not yet destroyed. -/
def Watched (c : Conn) : Prop :=
  c.mIo.isSome = decide (c.destroyed = 0)

/-- What holds of the watcher between callbacks: on a live connection
the event set is the one the queue calls for, and a destroyed one has
none. -/
def Rearmed (c : Conn) : Prop :=
  c.mIo = if c.destroyed = 0 then some (wanted c.mWlist) else none

theorem core_new (fd : Nat) : (new fd).Core :=
  ⟨rfl, by simp [new], rfl⟩

theorem rearmed_new (fd : Nat) : (new fd).Rearmed := rfl

/-- `Core` reads neither the watcher nor the destruction count. -/
theorem Core.of_eq {c c' : Conn} (h : c.Core)
    (hq : c'.mWlist = c.mWlist) (hr : c'.received = c.received)
    (hs : c'.sent = c.sent) (hn : c'.queued = c.queued)
    (hd : c'.released = c.released) : c'.Core := by
  refine ⟨?_, ?_, ?_⟩
  · rw [hr, hs, h.conserve, pending, pending, hq]
  · rw [hq]
    exact h.unsent
  · rw [hd, hq, hn]
    exact h.tickets

-- ============================================================ the pieces

/-- `read_cb` appends one non-empty buffer, or changes no history. -/
theorem core_readCb {c : Conn} (h : c.Core) (recv : Option Chunk) :
    (c.readCb recv).Core := by
  unfold readCb
  split
  · exact h
  · next rbuff =>
    split
    · exact h.of_eq rfl rfl rfl rfl rfl
    · next hne =>
      refine ⟨?_, ?_, ?_⟩
      · show c.received ++ rbuff.val = c.sent ++ List.flatMap _ (_ ++ _)
        rw [h.conserve, pending, List.flatMap_append, List.append_assoc]
        simp
      · intro b hb
        rcases List.mem_append.mp hb with hold | hnew
        · exact h.unsent b hold
        · rw [List.mem_singleton] at hnew
          subst hnew
          exact Nat.pos_of_ne_zero hne
      · show c.released ++ List.map _ (_ ++ _) = List.range (c.queued + 1)
        rw [List.map_append, ← List.append_assoc, h.tickets, List.range_succ]
        rfl

/-- A write moves the accepted bytes from the head of the queue to the
sent history, whether or not it exhausts the head buffer. -/
theorem core_writeCb {c : Conn} (h : c.Core) (room : Option Nat) :
    (c.writeCb room).Core := by
  unfold writeCb
  split
  · exact h.of_eq rfl rfl rfl rfl rfl
  · next buff rest hq =>
    have hcons : c.received
        = c.sent ++ (buff.dpos ++ rest.flatMap MBuffer.dpos) := by
      rw [h.conserve, pending, hq, List.flatMap_cons]
    have hrest : ∀ b ∈ rest, 0 < b.nbytes := fun b hb =>
      h.unsent b (by rw [hq]; exact List.mem_cons_of_mem _ hb)
    have htick : c.released ++ buff.ticket :: rest.map MBuffer.ticket
        = List.range c.queued := by
      rw [← h.tickets, hq, List.map_cons]
    split
    · exact h
    · next wsize hw _ =>
      dsimp only
      split
      · next hz =>
        -- the head is exhausted: all of it was sent
        have hall : buff.dpos.take wsize = buff.dpos := by
          apply List.take_of_length_le
          rw [MBuffer.dpos_length]
          rw [MBuffer.nbytes_advance] at hz
          omega
        refine ⟨?_, hrest, ?_⟩
        · show c.received = (c.sent ++ buff.dpos.take wsize) ++ _
          rw [hall, List.append_assoc]
          exact hcons
        · show (c.released ++ [_]) ++ _ = _
          rw [List.append_assoc]
          exact htick
      · next hnz =>
        refine ⟨?_, ?_, ?_⟩
        · show c.received
            = (c.sent ++ buff.dpos.take wsize) ++ List.flatMap _ (_ :: _)
          rw [List.flatMap_cons, MBuffer.dpos_advance, List.append_assoc,
            ← List.append_assoc (buff.dpos.take wsize), List.take_append_drop]
          exact hcons
        · intro b hb
          rcases List.mem_cons.mp hb with rfl | hb
          · exact Nat.pos_of_ne_zero hnz
          · exact hrest b hb
        · exact htick

theorem onThis_live {c : Conn} (h : c.destroyed = 0) (p : Piece)
    (k : Conn → Conn) : c.onThis p k = k c :=
  if_pos h

theorem core_onThis {c : Conn} (h : c.Core) (p : Piece) {k : Conn → Conn}
    (hk : (k c).Core) : (c.onThis p k).Core := by
  unfold onThis
  split
  · exact hk
  · exact h.of_eq rfl rfl rfl rfl rfl

-- ========================================================== the watcher

theorem watched_setIo {c : Conn} (h : c.Watched) (ev : EvSet) :
    (c.setIo ev).Watched := by
  show (c.mIo.map _).isSome = _
  rw [Option.isSome_map]
  exact h

theorem watched_destroy (c : Conn) : c.destroy.Watched := by
  simp [Watched, destroy]

theorem watched_readCb {c : Conn} (h : c.Watched) (recv : Option Chunk) :
    (c.readCb recv).Watched := by
  unfold readCb
  split
  · exact h
  · split
    · exact watched_destroy c
    · exact h

theorem watched_writeCb {c : Conn} (h : c.Watched) (room : Option Nat) :
    (c.writeCb room).Watched := by
  unfold writeCb
  split
  · exact watched_setIo h _
  · split
    · exact h
    · dsimp only
      split
      · exact h
      · exact h

theorem watched_onThis {c : Conn} (h : c.Watched) (p : Piece) {k : Conn → Conn}
    (hk : (k c).Watched) : (c.onThis p k).Watched := by
  unfold onThis
  split
  · exact hk
  · exact h

/-- The last piece of `callback` arms the watcher for the queue it
finds. -/
theorem rearmed_rearm {c : Conn} (h : c.Watched) :
    (c.onThis .rearm rearm).Rearmed := by
  unfold onThis
  split
  · next hz =>
    obtain ⟨ev, hev⟩ := Option.isSome_iff_exists.mp
      (h.trans (decide_eq_true hz))
    show c.mIo.map _ = if c.destroyed = 0 then _ else _
    rw [if_pos hz, hev]
    rfl
  · next hz =>
    show c.mIo = if c.destroyed = 0 then _ else _
    rw [if_neg hz]
    exact Option.not_isSome_iff_eq_none.mp (by rw [h]; simpa using hz)

theorem Rearmed.watched {c : Conn} (h : c.Rearmed) : c.Watched := by
  unfold Rearmed at h
  unfold Watched
  rw [h]
  split
  · next hz => simp [hz]
  · next hz => simp [hz]

-- ============================================================= a callback

/-- The state of a callback after its `READ` half. -/
def afterRead (c : Conn) (e : Event) : Conn :=
  if e.evRead then c.onThis .readCb (·.readCb e.recv) else c

/-- The state of a callback after its `WRITE` half. -/
def afterWrite (c : Conn) (e : Event) : Conn :=
  if e.evWrite then
    (c.afterRead e).onThis .writeCb (·.writeCb e.room)
  else c.afterRead e

/-- `callback` is its two halves and `rearm`, unless libev reports an
error. -/
theorem callback_eq (c : Conn) (e : Event) :
    c.callback e
      = if e.evError then { c with stopped := true }
        else (c.afterWrite e).onThis .rearm rearm := rfl

theorem core_afterRead {c : Conn} (h : c.Core) (e : Event) :
    (c.afterRead e).Core := by
  unfold afterRead
  split
  · exact core_onThis h _ (core_readCb h _)
  · exact h

theorem core_afterWrite {c : Conn} (h : c.Core) (e : Event) :
    (c.afterWrite e).Core := by
  unfold afterWrite
  split
  · exact core_onThis (core_afterRead h e) _
      (core_writeCb (core_afterRead h e) _)
  · exact core_afterRead h e

/-- Every callback keeps the invariant. -/
theorem core_callback {c : Conn} (h : c.Core) (e : Event) :
    (c.callback e).Core := by
  have h₂ := core_afterWrite h e
  rw [callback_eq]
  split
  · exact h.of_eq rfl rfl rfl rfl rfl
  · exact core_onThis h₂ _ (h₂.of_eq rfl rfl rfl rfl rfl)

theorem watched_afterRead {c : Conn} (h : c.Watched) (e : Event) :
    (c.afterRead e).Watched := by
  unfold afterRead
  split
  · exact watched_onThis h _ (watched_readCb h _)
  · exact h

theorem watched_afterWrite {c : Conn} (h : c.Watched) (e : Event) :
    (c.afterWrite e).Watched := by
  unfold afterWrite
  split
  · exact watched_onThis (watched_afterRead h e) _
      (watched_writeCb (watched_afterRead h e) _)
  · exact watched_afterRead h e

/-- Every callback leaves the watcher armed for its queue. -/
theorem rearmed_callback {c : Conn} (h : c.Rearmed) (e : Event) :
    (c.callback e).Rearmed := by
  rw [callback_eq]
  split
  · exact h
  · exact rearmed_rearm (watched_afterWrite h.watched e)

-- ================================================================ a run

/-- The invariant between callbacks. -/
structure Inv (c : Conn) : Prop where
  core : c.Core
  rearmed : c.Rearmed

theorem inv_new (fd : Nat) : (new fd).Inv :=
  ⟨core_new fd, rearmed_new fd⟩

theorem inv_callback {c : Conn} (h : c.Inv) (e : Event) : (c.callback e).Inv :=
  ⟨core_callback h.core e, rearmed_callback h.rearmed e⟩

/-- A step is a callback on an active watcher. -/
theorem step_eq_some {c c' : Conn} {e : Event} (h : step c e = some c') :
    c.mIo.isSome = true ∧ c' = c.callback e := by
  unfold step at h
  split at h
  · next hio => exact ⟨hio, (Option.some.inj h).symm⟩
  · cases h

theorem inv_step {c c' : Conn} {e : Event} (h : c.Inv)
    (hstep : step c e = some c') : c'.Inv := by
  obtain ⟨-, rfl⟩ := step_eq_some hstep
  exact inv_callback h e

/-- A live connection between callbacks can be called back. -/
theorem Inv.step_live {c : Conn} (h : c.Inv) (hlive : c.destroyed = 0)
    (e : Event) : step c e = some (c.callback e) := by
  unfold step
  rw [if_pos]
  rw [h.rearmed.watched]
  exact decide_eq_true hlive

end Conn

end TrashyServer.Echo
