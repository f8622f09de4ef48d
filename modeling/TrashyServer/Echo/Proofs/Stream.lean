/-
What a connection does with the bytes: conservation, draining, and the
one way a byte is lost.

- `echo_conserves`: in every state of every run, received is sent
  followed by pending, and received are the chunks that `recv` gave the
  callbacks of the run, in order (`run_received`).
- `rearmed_and_drains`: between callbacks the watcher waits for `WRITE`
  exactly while something is queued, and write-only callbacks that each
  take at least one byte empty the queue within as many callbacks as
  there are pending bytes.
- `eof_drained_iff`: `read_cb` destroys the instance on end of file
  whatever is queued, so a run destroys it with everything echoed
  exactly when each end of file it reads finds `m_wlist` empty.

What a connection is for is said by the relay (Lib/Relay.lean): seen
through its two histories a callback takes in its chunk and passes on
some pending bytes, and nothing else (`callback_relays`), and so does a
run, one move for each of its callbacks (`run_relays`). A callback that
drains is one that passes on only (`drain_callback`), and the drain is
then the relay's own arithmetic.
-/
import TrashyServer.Echo.Proofs.Instance
import TrashyServer.Lib.Relay

namespace TrashyServer.Echo

open Runs

namespace Conn

-- ============================================================ the relay

/-- The connection seen through its two histories. -/
def relay (c : Conn) (h : c.Core) : Relay UInt8 :=
  ⟨c.received, c.sent, ⟨c.pending, h.conserve.symm⟩⟩

/-- The queue is the relay's backlog. -/
theorem relay_pending {c : Conn} (h : c.Core) : (c.relay h).pending = c.pending :=
  Relay.pending_of_eq h.conserve

/-- The bytes a callback takes in. -/
def takes (c : Conn) (e : Event) : Str :=
  if c.destroyed = 0 then e.chunk else []

/-- `read_cb` takes in what `recv` gives. -/
theorem readCb_takes (c : Conn) (recv : Option Chunk) :
    (c.readCb recv).received = c.received ++ (recv.map Subtype.val).getD []
      ∧ (c.readCb recv).sent = c.sent := by
  unfold readCb
  split
  · exact ⟨(List.append_nil _).symm, rfl⟩
  · next rbuff =>
    split
    · next hz =>
      have hnil : rbuff.val = [] := List.length_eq_zero_iff.mp hz
      rw [Option.map_some, Option.getD_some, hnil, List.append_nil]
      exact ⟨rfl, rfl⟩
    · exact ⟨rfl, rfl⟩

/-- `write_cb` passes on some bytes from the front of the queue: at
least one when the queue holds any and the write takes any. -/
theorem writeCb_passes {c : Conn} (h : c.Core) (room : Option Nat) :
    ∃ n, (c.writeCb room).sent = c.sent ++ c.pending.take n
      ∧ (c.writeCb room).received = c.received
      ∧ (c.mWlist ≠ [] → ∀ r, room = some r → 1 ≤ r → 1 ≤ n) := by
  unfold writeCb
  split
  · next hq => exact ⟨0, by simp [setIo], rfl, fun hne => absurd hq hne⟩
  · next buff rest hq =>
    split
    · next hw =>
      refine ⟨0, by simp, rfl, fun _ r hr => ?_⟩
      rw [hr] at hw
      cases hw
    · next wsize hle hw =>
      have htake : c.pending.take wsize = buff.dpos.take wsize := by
        rw [pending, hq, List.flatMap_cons, List.take_append_of_le_length]
        rw [MBuffer.dpos_length]
        exact hle
      have hpos : ∀ r, room = some r → 1 ≤ r → 1 ≤ wsize := by
        intro r hr h1
        rw [hr] at hw
        have hmin : min r buff.nbytes = wsize :=
          congrArg Subtype.val (Option.some.inj hw)
        have hb := h.unsent buff (by rw [hq]; exact List.mem_cons_self ..)
        omega
      dsimp only
      split
      · exact ⟨wsize, by rw [htake], rfl, fun _ => hpos⟩
      · exact ⟨wsize, by rw [htake], rfl, fun _ => hpos⟩

theorem afterRead_takes (c : Conn) {e : Event} (herr : e.evError = false) :
    (c.afterRead e).received = c.received ++ c.takes e
      ∧ (c.afterRead e).sent = c.sent := by
  unfold afterRead takes Event.chunk Event.reads onThis
  rw [herr]
  by_cases hread : e.evRead = true
  · by_cases hlive : c.destroyed = 0
    · rw [if_pos hread, if_pos hlive, if_pos hlive, if_pos (by simp [hread])]
      exact readCb_takes c e.recv
    · rw [if_pos hread, if_neg hlive, if_neg hlive]
      exact ⟨(List.append_nil _).symm, rfl⟩
  · simp [hread]

theorem afterWrite_passes {c : Conn} (h : c.Core) (e : Event) :
    ∃ n, (c.afterWrite e).sent
        = (c.afterRead e).sent ++ (c.afterRead e).pending.take n
      ∧ (c.afterWrite e).received = (c.afterRead e).received := by
  unfold afterWrite onThis
  split
  · split
    · obtain ⟨n, hs, hr, -⟩ := writeCb_passes (core_afterRead h e) e.room
      exact ⟨n, hs, hr⟩
    · exact ⟨0, by simp, rfl⟩
  · exact ⟨0, by simp, rfl⟩

/-- The last piece of `callback` moves no byte. -/
theorem rearm_silent (c : Conn) :
    (c.onThis .rearm rearm).received = c.received
      ∧ (c.onThis .rearm rearm).sent = c.sent := by
  unfold onThis
  split
  · exact ⟨rfl, rfl⟩
  · exact ⟨rfl, rfl⟩

/-- A callback refines the relay: it takes its chunk in and passes some
pending bytes on. -/
theorem callback_relays {c : Conn} (h : c.Core) (e : Event) :
    ∃ n, (c.callback e).relay (core_callback h e)
      = (c.relay h).move (c.takes e, n) := by
  by_cases herr : e.evError = true
  · have hnone : c.takes e = [] := by simp [takes, Event.chunk, Event.reads, herr]
    refine ⟨0, Relay.ext ?_ ?_⟩
    · show (c.callback e).received = c.received ++ c.takes e
      rw [callback_eq, if_pos herr, hnone, List.append_nil]
    · rw [Relay.move, Relay.out_send, List.take_zero, List.append_nil]
      show (c.callback e).sent = c.sent
      rw [callback_eq, if_pos herr]
  · obtain ⟨hr₁, hs₁⟩ := afterRead_takes c ((Bool.not_eq_true _).mp herr)
    obtain ⟨n, hs₂, hr₂⟩ := afterWrite_passes h e
    obtain ⟨hr₃, hs₃⟩ := rearm_silent (c.afterWrite e)
    have hpend : (c.afterRead e).pending
        = ((c.relay h).recv (c.takes e)).pending := by
      rw [← relay_pending (core_afterRead h e)]
      congr 1
      exact Relay.ext hr₁ hs₁
    refine ⟨n, Relay.ext ?_ ?_⟩
    · show (c.callback e).received = c.received ++ c.takes e
      rw [callback_eq, if_neg herr, hr₃, hr₂, hr₁]
    · rw [Relay.move, Relay.out_send, ← hpend]
      show (c.callback e).sent = c.sent ++ _
      rw [callback_eq, if_neg herr, hs₃, hs₂, hs₁]

/-- A connection is called back only while it is live. -/
theorem Inv.live_of_step {c c' : Conn} {e : Event} (h : c.Inv)
    (hstep : step c e = some c') : c.destroyed = 0 := by
  have hio := (step_eq_some hstep).1
  rw [h.rearmed.watched] at hio
  exact of_decide_eq_true hio

/-- A run refines the relay: from any reachable state its callbacks are
moves of the relay, one each, that take in their chunks. -/
theorem run_relays :
    ∀ {es : List Event} {c c' : Conn} (h : c.Inv), run step c es = some c' →
      ∃ (h' : c'.Core) (moves : List (Str × Nat)),
        moves.map Prod.fst = es.map Event.chunk
          ∧ c'.relay h' = moves.foldl Relay.move (c.relay h.core) := by
  intro es
  induction es with
  | nil =>
      intro c c' h hrun
      cases hrun
      exact ⟨h.core, [], rfl, rfl⟩
  | cons e es ih =>
      intro c c' h hrun
      cases he : step c e with
      | none => rw [run_cons, he] at hrun; cases hrun
      | some c₁ =>
          rw [run_cons_some es he] at hrun
          obtain ⟨h', moves, htaken, hmoves⟩ := ih (inv_step h he) hrun
          have hchunk : c.takes e = e.chunk := if_pos (h.live_of_step he)
          obtain ⟨-, rfl⟩ := step_eq_some he
          obtain ⟨n, hmove⟩ := callback_relays h.core e
          refine ⟨h', (c.takes e, n) :: moves, ?_, ?_⟩
          · rw [List.map_cons, List.map_cons, htaken, hchunk]
          · rw [hmoves, List.foldl_cons, hmove]

-- ========================================================= conservation

/-- Byte conservation: in every state of every run of callbacks on one
connection, the bytes received are the bytes sent followed by the
pending bytes of the queue. -/
theorem echo_conserves (fd : Nat) (es : List Event) :
    Always step (fun c => c.received = c.sent ++ c.pending) (new fd) es :=
  always_of_invariant inv_step (fun h => h.core.conserve) (inv_new fd)

/-- What a connection has received is what `recv` gave the callbacks of
its run: their chunks, one behind the other. -/
theorem run_received {fd : Nat} {es : List Event} {c : Conn}
    (hrun : run step (new fd) es = some c) :
    c.received = es.flatMap Event.chunk := by
  obtain ⟨h, moves, htaken, hmoves⟩ := run_relays (inv_new fd) hrun
  have hinp : c.received = (moves.foldl Relay.move ((new fd).relay _)).inp :=
    congrArg Relay.inp hmoves
  rw [hinp, Relay.inp_moves, htaken, List.flatMap_def]
  rfl

-- ============================================================ the drain

/-- Nothing pending is nothing queued: no queued buffer is exhausted. -/
theorem Core.wlist_nil {c : Conn} (h : c.Core) (hp : c.pending = []) :
    c.mWlist = [] := by
  cases hq : c.mWlist with
  | nil => rfl
  | cons b rest =>
      have hb := h.unsent b (by rw [hq]; exact List.mem_cons_self ..)
      rw [pending, hq, List.flatMap_cons] at hp
      rw [← MBuffer.dpos_length, (List.append_eq_nil_iff.mp hp).1] at hb
      cases hb

/-- `write_cb` destroys nothing. -/
theorem writeCb_alive (c : Conn) (room : Option Nat) :
    (c.writeCb room).destroyed = c.destroyed
      ∧ (c.writeCb room).afterDestroy = c.afterDestroy := by
  unfold writeCb
  split
  · exact ⟨rfl, rfl⟩
  · split
    · exact ⟨rfl, rfl⟩
    · dsimp only
      split
      · exact ⟨rfl, rfl⟩
      · exact ⟨rfl, rfl⟩

/-- A write-only callback on a live connection is the relay passing on,
and makes progress while anything is queued. -/
theorem drain_callback {c : Conn} (h : c.Inv) (hlive : c.destroyed = 0)
    {e : Event} (he : e.writeOnly) :
    (c.callback e).destroyed = 0
      ∧ ∃ n, (c.callback e).relay (core_callback h.core e)
          = (c.relay h.core).send n
        ∧ (c.mWlist ≠ [] → 1 ≤ n) := by
  obtain ⟨herr, hread, hwrite, r, hroom, h1⟩ := he
  have hlive' : (c.writeCb e.room).destroyed = 0 :=
    (writeCb_alive c e.room).1.trans hlive
  have hcb : c.callback e = (c.writeCb e.room).rearm := by
    simp [callback, herr, hread, hwrite, onThis_live hlive, onThis_live hlive']
  obtain ⟨n, hsent, hrecv, hpos⟩ := writeCb_passes h.core e.room
  refine ⟨?_, n, Relay.ext ?_ ?_, fun hne => hpos hne r hroom h1⟩
  · rw [hcb]
    exact hlive'
  · show (c.callback e).received = c.received
    rw [hcb]
    exact hrecv
  · rw [Relay.out_send, relay_pending]
    show (c.callback e).sent = c.sent ++ c.pending.take n
    rw [hcb]
    exact hsent

/-- Enough write-only callbacks empty the queue and send exactly what
was pending. -/
theorem drain_run :
    ∀ {ds : List Event} {c : Conn}, c.Inv → c.destroyed = 0 →
      (∀ d ∈ ds, d.writeOnly) → c.pending.length ≤ ds.length →
      ∃ c', run step c ds = some c' ∧ c'.Inv ∧ c'.destroyed = 0
        ∧ c'.mWlist = [] ∧ c'.sent = c.sent ++ c.pending := by
  intro ds
  induction ds with
  | nil =>
      intro c h hlive _ hlen
      have hp : c.pending = [] := List.length_eq_zero_iff.mp (Nat.le_zero.mp hlen)
      exact ⟨c, rfl, h, hlive, h.core.wlist_nil hp, by rw [hp, List.append_nil]⟩
  | cons d ds ih =>
      intro c h hlive hds hlen
      obtain ⟨hlive', n, hrelay, hpos⟩ :=
        drain_callback h hlive (hds d (List.mem_cons_self ..))
      have hpend : (c.callback d).pending = c.pending.drop n := by
        rw [← relay_pending (core_callback h.core d), hrelay, Relay.pending_send,
          relay_pending]
      have hsent : (c.callback d).sent = c.sent ++ c.pending.take n := by
        rw [← relay_pending h.core]
        exact (congrArg Relay.out hrelay).trans (Relay.out_send ..)
      have hlen' : (c.callback d).pending.length ≤ ds.length := by
        rw [hpend, List.length_drop]
        rw [List.length_cons] at hlen
        by_cases hq : c.mWlist = []
        · rw [pending, hq, List.flatMap_nil, List.length_nil]
          omega
        · have := hpos hq
          omega
      obtain ⟨c', hrun, hinv', hl', hq', hs'⟩ := ih (inv_callback h d) hlive'
        (fun d' hd' => hds d' (List.mem_cons_of_mem _ hd')) hlen'
      refine ⟨c', ?_, hinv', hl', hq', ?_⟩
      · rw [run_cons_some ds (h.step_live hlive d)]
        exact hrun
      · rw [hs', hsent, hpend, List.append_assoc, List.take_append_drop]

/-- No lost wake-up, and the drain: between callbacks of a live
connection the watcher waits for `READ | WRITE` exactly while a buffer
is queued, every queued buffer has bytes left, and any write-only
callbacks that each take at least one byte, as many as there are
pending bytes, send exactly those bytes and leave the queue empty and
the watcher at `READ`. -/
theorem rearmed_and_drains (fd : Nat) (es : List Event) :
    Always step
      (fun c => c.destroyed = 0 →
        c.mIo = some (if c.mWlist.isEmpty then evSetRead else evSetReadWrite)
          ∧ (∀ b ∈ c.mWlist, 0 ≤ b.curs ∧ b.curs < b.len)
          ∧ ∀ ds : List Event, (∀ d ∈ ds, d.writeOnly) →
              c.pending.length ≤ ds.length →
              ∃ c', run step c ds = some c' ∧ c'.mWlist = []
                ∧ c'.sent = c.sent ++ c.pending ∧ c'.mIo = some evSetRead)
      (new fd) es := by
  refine always_of_invariant inv_step (fun {c} h hlive => ⟨?_, ?_, ?_⟩)
    (inv_new fd)
  · have hio := h.rearmed
    rw [Rearmed, if_pos hlive] at hio
    exact hio
  · intro b hb
    have hpos := h.core.unsent b hb
    unfold MBuffer.nbytes at hpos
    exact ⟨Nat.zero_le _, by omega⟩
  · intro ds hds hlen
    obtain ⟨c', hrun, hinv', hlive', hq', hsent⟩ := drain_run h hlive hds hlen
    refine ⟨c', hrun, hq', hsent, ?_⟩
    have hio := hinv'.rearmed
    rw [Rearmed, if_pos hlive', hq'] at hio
    exact hio

-- ========================================================== end of file

/-- End of file destroys the instance; the rest of the callback runs on
the destroyed object and moves nothing. -/
theorem callback_eof {c : Conn} (hlive : c.destroyed = 0) {e : Event}
    (he : e.readsEof) :
    (c.callback e).destroyed = 1 ∧ (c.callback e).mWlist = c.mWlist
      ∧ (c.callback e).released = c.released
      ∧ (c.callback e).queued = c.queued
      ∧ .rearm ∈ (c.callback e).afterDestroy := by
  obtain ⟨herr, hread, r, hrecv, hnil⟩ := he
  have hcb : c.readCb e.recv = c.destroy := by
    unfold readCb
    rw [hrecv]
    simp [hnil]
  cases hw : e.evWrite with
  | false => simp [callback, onThis, herr, hread, hw, hlive, hcb, destroy]
  | true => simp [callback, onThis, herr, hread, hw, hlive, hcb, destroy]

/-- Short of end of file `read_cb` destroys nothing. -/
theorem readCb_alive (c : Conn) (recv : Option Chunk)
    (h : ∀ r, recv = some r → r.val ≠ []) :
    (c.readCb recv).destroyed = c.destroyed
      ∧ (c.readCb recv).afterDestroy = c.afterDestroy := by
  unfold readCb
  split
  · exact ⟨rfl, rfl⟩
  · next rbuff =>
    split
    · next hz => exact absurd (List.length_eq_zero_iff.mp hz) (h rbuff rfl)
    · exact ⟨rfl, rfl⟩

/-- Any other callback leaves a live instance alive and runs nothing on
a destroyed one. -/
theorem callback_no_eof {c : Conn} (hlive : c.destroyed = 0) {e : Event}
    (he : ¬ e.readsEof) :
    (c.callback e).destroyed = 0
      ∧ (c.callback e).afterDestroy = c.afterDestroy := by
  rw [callback_eq]
  split
  · exact ⟨hlive, rfl⟩
  · next herr =>
    have hread : (c.afterRead e).destroyed = 0
        ∧ (c.afterRead e).afterDestroy = c.afterDestroy := by
      unfold afterRead
      split
      · next hr =>
        rw [onThis_live hlive]
        have := readCb_alive c e.recv fun r hrecv hnil =>
          he ⟨by simpa using herr, hr, r, hrecv, hnil⟩
        exact ⟨this.1.trans hlive, this.2⟩
      · exact ⟨hlive, rfl⟩
    have hwrite : (c.afterWrite e).destroyed = 0
        ∧ (c.afterWrite e).afterDestroy = c.afterDestroy := by
      unfold afterWrite
      split
      · rw [onThis_live hread.1]
        have := writeCb_alive (c.afterRead e) e.room
        exact ⟨this.1.trans hread.1, this.2.trans hread.2⟩
      · exact hread
    rw [onThis_live hwrite.1]
    exact hwrite

theorem stopped_onThis (c : Conn) (p : Piece) {k : Conn → Conn}
    (hk : (k c).stopped = c.stopped) : (c.onThis p k).stopped = c.stopped := by
  unfold onThis
  split
  · exact hk
  · rfl

/-- `read_cb` and -/
theorem stopped_readCb (c : Conn) (recv : Option Chunk) :
    (c.readCb recv).stopped = c.stopped := by
  unfold readCb
  split
  · rfl
  · split
    · rfl
    · rfl

/-- `write_cb` leave it to libev whether it has stopped the watcher. -/
theorem stopped_writeCb (c : Conn) (room : Option Nat) :
    (c.writeCb room).stopped = c.stopped := by
  unfold writeCb
  split
  · rfl
  · split
    · rfl
    · dsimp only
      split
      · rfl
      · rfl

/-- Only an error stops the watcher of a connection that reads no end of
file. -/
theorem callback_stopped (c : Conn) {e : Event} (he : e.evError = false) :
    (c.callback e).stopped = c.stopped := by
  have hread : (c.afterRead e).stopped = c.stopped := by
    unfold afterRead
    split
    · exact stopped_onThis c _ (stopped_readCb c e.recv)
    · rfl
  have hwrite : (c.afterWrite e).stopped = (c.afterRead e).stopped := by
    unfold afterWrite
    split
    · exact stopped_onThis _ _ (stopped_writeCb _ e.room)
    · rfl
  rw [callback_eq, if_neg (by simp [he]), stopped_onThis (c.afterWrite e) _ rfl,
    hwrite, hread]

/-- The instance is gone only with everything echoed. -/
def EchoedAtEnd (c : Conn) : Prop :=
  c.destroyed ≠ 0 → c.mWlist = [] ∧ c.received = c.sent

/-- End of file and the queue: a run destroys the instance only with
everything received accepted by `write` exactly when every end of file
it reads finds `m_wlist` empty. `read_cb` never looks. -/
theorem eof_drained_iff (fd : Nat) (es : List Event) :
    Always step EchoedAtEnd (new fd) es
      ↔ Along step (fun c e => e.readsEof → c.mWlist = []) (new fd) es := by
  constructor
  · refine along_of_always inv_step (fun {c e c'} h _ hstep hQ' he => ?_)
      (inv_new fd)
    obtain ⟨hd, hq, -⟩ := callback_eof (h.live_of_step hstep) he
    obtain ⟨-, rfl⟩ := step_eq_some hstep
    rw [← hq]
    exact (hQ' (by omega)).1
  · refine always_of_along (I := fun c : Conn => c.Inv ∧ c.EchoedAtEnd)
      (fun {c e c'} h hP hstep => ?_) (fun h => h.2)
      ⟨inv_new fd, fun hd => absurd rfl hd⟩
    have hinv' := inv_step h.1 hstep
    have hlive := h.1.live_of_step hstep
    obtain ⟨-, rfl⟩ := step_eq_some hstep
    refine ⟨hinv', fun hd => ?_⟩
    by_cases he : e.readsEof
    · have hq : (c.callback e).mWlist = [] := by
        rw [(callback_eof hlive he).2.1]
        exact hP he
      have hcons := hinv'.core.conserve
      rw [pending, hq, List.flatMap_nil, List.append_nil] at hcons
      exact ⟨hq, hcons⟩
    · exact absurd (callback_no_eof hlive he).1 hd

/-- One chunk arrives, then end of file, and the socket was never
writable in between. -/
def backlogThenEof : List Event :=
  [⟨false, true, false, some ⟨bytes "hi", by decide⟩, some 0⟩,
    ⟨false, true, false, some ⟨[], by decide⟩, some 0⟩]

/-- No write reports an error, and the two bytes are dropped with the
instance. -/
theorem eof_drops_backlog :
    (∀ e ∈ backlogThenEof, e.room ≠ none)
      ∧ ¬ Always step EchoedAtEnd (new 5) backlogThenEof := by
  refine ⟨by simp [backlogThenEof], fun h => ?_⟩
  have hend := ((h.2 _ rfl).2 _ rfl) (by decide)
  exact absurd hend.1 (by decide)

end Conn

end TrashyServer.Echo
