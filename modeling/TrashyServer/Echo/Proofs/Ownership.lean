/-
Ownership of connections and buffers in the service.

`LedgerOk` is the promise: the owner's list names exactly the live
instances, no piece of a callback runs on a destroyed one, and after
`~service` every instance has been destroyed once and every buffer
released once. `ownership_iff` says exactly which runs keep it: those
in which no callback reads end of file and `~service` finds every queue
empty. One end of file is enough to break it three ways — `callback`
goes on to run on the deleted `this`, `m_instance` still lists it, and
`~service` deletes it again — and a queue that is not empty at
`~service` is a leak, since `~serviceinstance` deletes no `mbuffer`.

Both directions are one fact about one step (Lib/Runs.lean): the strong
invariant `Settled` survives clean steps, and a step that is not clean
lands outside `LedgerOk` from any reachable state (`Sound`).
-/
import TrashyServer.Echo.Service
import TrashyServer.Echo.Proofs.Stream
import Mathlib.Data.List.Nodup

namespace TrashyServer.Echo

open Runs

-- ======================================================= the buffer ledger

/-- Every buffer ever queued has been released exactly once. -/
def Conn.AllReleased (c : Conn) : Prop :=
  ∀ k < c.queued, c.released.count k = 1

/-- The released buffers are all of them exactly when none is queued. -/
theorem Conn.Core.allReleased_iff {c : Conn} (h : c.Core) :
    c.AllReleased ↔ c.mWlist = [] := by
  have hone : ∀ k < c.queued,
      c.released.count k + (c.mWlist.map MBuffer.ticket).count k = 1 := by
    intro k hk
    rw [← List.count_append, h.tickets]
    exact List.count_eq_one_of_mem List.nodup_range (List.mem_range.mpr hk)
  constructor
  · intro hall
    cases hq : c.mWlist with
    | nil => rfl
    | cons b rest =>
        have hmem : b.ticket ∈ c.mWlist.map MBuffer.ticket := by
          rw [hq]
          exact List.mem_cons_self ..
        have hlt : b.ticket < c.queued := by
          rw [← List.mem_range, ← h.tickets]
          exact List.mem_append_right _ hmem
        have hpos := List.count_pos_iff.mpr hmem
        have := hone _ hlt
        have := hall _ hlt
        omega
  · intro hq k hk
    have := hone k hk
    rw [hq] at this
    simpa using this

-- ============================================================= ~service

/-- A connection after some number of deletes: only the watcher and the
destruction count have changed. -/
structure Deleted (n : Nat) (c c' : Conn) : Prop where
  destroyed : c'.destroyed = c.destroyed + n
  afterDestroy : c'.afterDestroy = c.afterDestroy
  queued : c'.queued = c.queued
  released : c'.released = c.released

theorem deleteAll_length (is : List Nat) (cs : List Conn) :
    (Service.deleteAll is cs).length = cs.length := by
  induction is generalizing cs with
  | nil => rfl
  | cons i is ih => exact (ih _).trans (List.length_modify ..)

/-- `~service` deletes each instance as often as the list names it. -/
theorem deleteAll_spec (is : List Nat) {cs : List Conn} {j : Nat} {c : Conn}
    (hj : cs[j]? = some c) :
    ∃ c', (Service.deleteAll is cs)[j]? = some c'
      ∧ Deleted (is.count j) c c' := by
  induction is generalizing cs c with
  | nil => exact ⟨c, hj, rfl, rfl, rfl, rfl⟩
  | cons i is ih =>
      have hmod : (cs.modify i Conn.destroy)[j]?
          = some (if i = j then c.destroy else c) := by
        rw [List.getElem?_modify, hj]
        rfl
      obtain ⟨c', hc', hd⟩ := ih hmod
      refine ⟨c', hc', ?_⟩
      rw [List.count_cons]
      by_cases hij : i = j
      · rw [if_pos hij] at hd
        refine ⟨?_, hd.afterDestroy, hd.queued, hd.released⟩
        have hn : c'.destroyed = c.destroyed + 1 + is.count j := hd.destroyed
        rw [hn, if_pos (beq_iff_eq.mpr hij)]
        omega
      · rw [if_neg hij] at hd
        refine ⟨?_, hd.afterDestroy, hd.queued, hd.released⟩
        rw [hd.destroyed, if_neg (by simpa using hij)]
        rfl

/-- Every instance after `~service` is one from before, deleted. -/
theorem mem_deleteAll {is : List Nat} {cs : List Conn} {c' : Conn}
    (h : c' ∈ Service.deleteAll is cs) :
    ∃ j c, cs[j]? = some c ∧ Deleted (is.count j) c c' := by
  obtain ⟨j, hj, rfl⟩ := List.mem_iff_getElem.mp h
  rw [deleteAll_length] at hj
  obtain ⟨c', hc', hd⟩ := deleteAll_spec is (List.getElem?_eq_getElem hj)
  refine ⟨j, cs[j], List.getElem?_eq_getElem hj, ?_⟩
  rw [List.getElem?_eq_getElem (by rw [deleteAll_length]; exact hj),
    Option.some.injEq] at hc'
  exact hc' ▸ hd

namespace Service

-- ============================================================ the promise

/-- What the service owes its instances and their buffers. -/
structure LedgerOk (s : Service) : Prop where
  /-- While the service runs, its list names the instances made and not
  yet destroyed, each once. -/
  owned : s.down = false →
    s.mInstance.Nodup
      ∧ ∀ i, i ∈ s.mInstance ↔ ∃ c, s.conns[i]? = some c ∧ c.destroyed = 0
  /-- No piece of `callback` ran on a destroyed instance. -/
  unused : ∀ c ∈ s.conns, c.afterDestroy = []
  /-- After `~service` each instance was destroyed once and each buffer
  released once. -/
  settled : s.down = true →
    ∀ c ∈ s.conns, c.destroyed = 1 ∧ c.AllReleased

/-- A step that reads no end of file, and shuts down on empty queues
only. -/
def Clean (s : Service) : ServiceEvent → Prop
  | .listenAccept _ _ => True
  | .callback _ e => ¬ e.readsEof
  | .shutdown => ∀ c ∈ s.conns, c.mWlist = []

-- ======================================================= the step, inverted

/-- Everything one step can do. -/
theorem step_cases {s s' : Service} {ev : ServiceEvent}
    (h : step s ev = some s') :
    s.down = false ∧
      ((∃ er fd, ev = .listenAccept er fd ∧ s' = s.listenAccept er fd)
        ∨ (∃ i e c c', ev = .callback i e ∧ s.conns[i]? = some c
            ∧ c.step e = some c' ∧ s' = { s with conns := s.conns.set i c' })
        ∨ (ev = .shutdown ∧ s' = s.destroy)) := by
  unfold step at h
  split at h
  case isTrue => cases h
  case isFalse hd =>
    refine ⟨by simpa using hd, ?_⟩
    cases ev with
    | listenAccept er fd =>
        exact Or.inl ⟨er, fd, rfl, (Option.some.inj h).symm⟩
    | shutdown => exact Or.inr (Or.inr ⟨rfl, (Option.some.inj h).symm⟩)
    | callback i e =>
        dsimp only at h
        split at h
        · cases h
        · next c hc =>
          obtain ⟨c', hc', rfl⟩ := Option.map_eq_some_iff.mp h
          exact Or.inr (Or.inl ⟨i, e, c, c', rfl, hc, hc', rfl⟩)

/-- The instances after `listen_accept`: those before, and perhaps a
new one that the list names. -/
theorem listenAccept_cases (s : Service) (er : Bool)
    (fd : Option {fd : Nat // 0 < fd}) :
    (∃ b, s.listenAccept er fd = { s with stopped := b })
      ∨ ∃ fd', s.listenAccept er fd
          = { s with
              conns := s.conns ++ [Conn.new fd']
              mInstance := s.mInstance ++ [s.conns.length] } := by
  unfold listenAccept
  split
  · exact Or.inl ⟨true, rfl⟩
  · split
    · exact Or.inl ⟨s.stopped, rfl⟩
    · next fd => exact Or.inr ⟨fd.val, rfl⟩

-- ==================================================== any run: the weak half

/-- What every run keeps, clean or not: each instance of a running
service keeps the invariant of its own callbacks. -/
def Sound (s : Service) : Prop :=
  s.down = false → ∀ c ∈ s.conns, c.Inv

theorem sound_new : Sound new := by
  intro _ c hc
  cases hc

theorem sound_step {s s' : Service} {ev : ServiceEvent} (h : Sound s)
    (hstep : step s ev = some s') : Sound s' := by
  obtain ⟨hd, hcase⟩ := step_cases hstep
  rcases hcase with
    ⟨er, fd, rfl, rfl⟩ | ⟨i, e, c, c', rfl, hc, hc', rfl⟩ | ⟨rfl, rfl⟩
  · rcases listenAccept_cases s er fd with ⟨b, heq⟩ | ⟨fd', heq⟩
    · rw [heq]
      exact h
    · rw [heq]
      intro _ c hc
      rcases List.mem_append.mp hc with hold | hnew
      · exact h hd c hold
      · rw [List.mem_singleton.mp hnew]
        exact Conn.inv_new fd'
  · intro _ d hmem
    rcases List.mem_or_eq_of_mem_set hmem with hold | rfl
    · exact h hd d hold
    · exact Conn.inv_step (h hd c (List.mem_of_getElem? hc)) hc'
  · intro hdown
    cases hdown

/-- A step that lands inside the promise is clean. -/
theorem clean_of_ledgerOk {s s' : Service} {ev : ServiceEvent} (h : Sound s)
    (hstep : step s ev = some s') (hok : LedgerOk s') : Clean s ev := by
  obtain ⟨hd, hcase⟩ := step_cases hstep
  rcases hcase with
    ⟨er, fd, rfl, -⟩ | ⟨i, e, c, c', rfl, hc, hc', rfl⟩ | ⟨rfl, rfl⟩
  · trivial
  · -- end of file would leave a piece of `callback` on a destroyed instance
    intro heof
    have hinv := h hd c (List.mem_of_getElem? hc)
    have hpiece := (Conn.callback_eof (hinv.live_of_step hc') heof).2.2.2.2
    obtain ⟨-, rfl⟩ := Conn.step_eq_some hc'
    have hlt : i < s.conns.length := (List.getElem?_eq_some_iff.mp hc).1
    rw [hok.unused _ (List.mem_set hlt _)] at hpiece
    cases hpiece
  · -- a buffer still queued at `~service` is never released
    intro c hc
    obtain ⟨j, hj, hcj⟩ := List.mem_iff_getElem.mp hc
    obtain ⟨c', hc', hdel⟩ := deleteAll_spec s.mInstance
      ((List.getElem?_eq_getElem hj).trans (congrArg some hcj))
    have hall := (hok.settled rfl c' (List.mem_of_getElem? hc')).2
    unfold Conn.AllReleased at hall
    rw [hdel.queued, hdel.released] at hall
    exact (h hd c hc).core.allReleased_iff.mp hall

-- ================================================== clean runs: the promise

/-- What clean runs keep: the list names every instance, none of which
has been destroyed while the service runs. -/
structure Settled (s : Service) : Prop where
  unused : ∀ c ∈ s.conns, c.afterDestroy = []
  running : s.down = false →
    s.mInstance = List.range s.conns.length
      ∧ ∀ c ∈ s.conns, c.Inv ∧ c.destroyed = 0
  settled : s.down = true →
    ∀ c ∈ s.conns, c.destroyed = 1 ∧ c.AllReleased

theorem settled_new : Settled new :=
  ⟨by simp [new], by simp [new], by simp [new]⟩

theorem settled_listenAccept {s : Service} (h : Settled s)
    (hd : s.down = false) (er : Bool) (fd : Option {fd : Nat // 0 < fd}) :
    Settled (s.listenAccept er fd) := by
  rcases listenAccept_cases s er fd with ⟨b, heq⟩ | ⟨fd', heq⟩
  · rw [heq]
    exact ⟨h.unused, h.running, h.settled⟩
  · rw [heq]
    obtain ⟨hlist, hlive⟩ := h.running hd
    refine ⟨?_, fun _ => ⟨?_, ?_⟩,
      fun hdown => absurd (hd.symm.trans hdown) (by decide)⟩
    · intro c hc
      rcases List.mem_append.mp hc with hold | hnew
      · exact h.unused c hold
      · rw [List.mem_singleton.mp hnew]
        rfl
    · show s.mInstance ++ [_] = List.range (_ ++ [_]).length
      rw [hlist, List.length_append, List.length_singleton, List.range_succ]
    · intro c hc
      rcases List.mem_append.mp hc with hold | hnew
      · exact hlive c hold
      · rw [List.mem_singleton.mp hnew]
        exact ⟨Conn.inv_new fd', rfl⟩

theorem settled_callback {s : Service} (h : Settled s) (hd : s.down = false)
    {i : Nat} {e : Event} {c c' : Conn} (hc : s.conns[i]? = some c)
    (hc' : c.step e = some c') (he : ¬ e.readsEof) :
    Settled { s with conns := s.conns.set i c' } := by
  obtain ⟨hlist, hlive⟩ := h.running hd
  have hmem := List.mem_of_getElem? hc
  have hinv' := Conn.inv_step (hlive c hmem).1 hc'
  obtain ⟨-, rfl⟩ := Conn.step_eq_some hc'
  obtain ⟨hzero, hsame⟩ := Conn.callback_no_eof (hlive c hmem).2 he
  refine ⟨?_, fun _ => ⟨?_, ?_⟩,
    fun hdown => absurd (hd.symm.trans hdown) (by decide)⟩
  · intro d hmemd
    rcases List.mem_or_eq_of_mem_set hmemd with hold | rfl
    · exact h.unused d hold
    · exact hsame.trans (h.unused c hmem)
  · show s.mInstance = List.range (s.conns.set i _).length
    rw [List.length_set]
    exact hlist
  · intro d hmemd
    rcases List.mem_or_eq_of_mem_set hmemd with hold | rfl
    · exact hlive d hold
    · exact ⟨hinv', hzero⟩

theorem settled_destroy {s : Service} (h : Settled s) (hd : s.down = false)
    (hempty : ∀ c ∈ s.conns, c.mWlist = []) : Settled s.destroy := by
  obtain ⟨hlist, hlive⟩ := h.running hd
  refine ⟨?_, fun hdown => (nomatch hdown), fun _ => ?_⟩
  · intro c' hc'
    obtain ⟨j, c, hc, hdel⟩ := mem_deleteAll hc'
    exact hdel.afterDestroy.trans (h.unused c (List.mem_of_getElem? hc))
  · intro c' hc'
    obtain ⟨j, c, hc, hdel⟩ := mem_deleteAll hc'
    have hmem := List.mem_of_getElem? hc
    have hcount : s.mInstance.count j = 1 := by
      rw [hlist]
      exact List.count_eq_one_of_mem List.nodup_range
        (List.mem_range.mpr (List.getElem?_eq_some_iff.mp hc).1)
    refine ⟨?_, ?_⟩
    · rw [hdel.destroyed, hcount, (hlive c hmem).2]
    · have hall := (hlive c hmem).1.core.allReleased_iff.mpr (hempty c hmem)
      unfold Conn.AllReleased
      rw [hdel.queued, hdel.released]
      exact hall

/-- Clean steps keep the promise. -/
theorem settled_step {s s' : Service} {ev : ServiceEvent} (h : Settled s)
    (hclean : Clean s ev) (hstep : step s ev = some s') : Settled s' := by
  obtain ⟨hd, hcase⟩ := step_cases hstep
  rcases hcase with
    ⟨er, fd, rfl, rfl⟩ | ⟨i, e, c, c', rfl, hc, hc', rfl⟩ | ⟨rfl, rfl⟩
  · exact settled_listenAccept h hd er fd
  · exact settled_callback h hd hc hc' hclean
  · exact settled_destroy h hd hclean

theorem Settled.ledgerOk {s : Service} (h : Settled s) : LedgerOk s := by
  refine ⟨fun hd => ?_, h.unused, h.settled⟩
  obtain ⟨hlist, hlive⟩ := h.running hd
  rw [hlist]
  refine ⟨List.nodup_range, fun i => ?_⟩
  rw [List.mem_range]
  constructor
  · intro hi
    exact ⟨s.conns[i], List.getElem?_eq_getElem hi,
      (hlive _ (List.getElem_mem hi)).2⟩
  · rintro ⟨c, hc, -⟩
    exact (List.getElem?_eq_some_iff.mp hc).1

/-- Ownership, exactly: a run of the service keeps its ledger right in
every state it reaches if and only if no callback of it reads end of
file and `~service`, should it run, finds every queue empty. -/
theorem ownership_iff (es : List ServiceEvent) :
    Always step LedgerOk new es ↔ Along step Clean new es :=
  ⟨along_of_always sound_step (fun h _ hstep hok => clean_of_ledgerOk h hstep hok)
      sound_new,
    always_of_along settled_step Settled.ledgerOk settled_new⟩

/-- One client connects, sends nothing and closes; the service is then
shut down. -/
def connectAndClose : List ServiceEvent :=
  [.listenAccept false (some ⟨5, Nat.succ_pos 4⟩),
    .callback 0 ⟨false, true, false, some ⟨[], Nat.zero_le _⟩, some 0⟩,
    .shutdown]

/-- The closed connection is still listed, `callback` has run on it
after its destructor, and `~service` destroys it a second time. -/
theorem eof_breaks_ownership :
    ¬ Always step LedgerOk new connectAndClose
      ∧ ∃ s, run step new connectAndClose = some s
        ∧ s.mInstance = [0]
        ∧ s.conns.map (fun c => (c.destroyed, c.afterDestroy))
          = [(2, [.rearm])] := by
  refine ⟨fun h => ?_, _, rfl, rfl, rfl⟩
  have hend := (h.2 _ rfl).2 _ rfl
  exact absurd (hend.first.unused _ (List.mem_singleton_self _)) (by decide)

end Service

end TrashyServer.Echo
