/-
Which connections the events of a batch are for.

`epoll_wait` reports descriptors, and by the time the loop comes to the
last of them the ones before have been answered and closed, and the
listening socket's event has had `accept` give out a descriptor, perhaps
one of those just closed. An event is for a connection, though, and the
number of a connection is not used again. So what is to be shown is that
a descriptor still to be taken stands for the connection it was reported
for (`number_goes`): it is open as long as its event waits, and `accept`
gives out what is not open.

`answered_as_reported` says what follows for a whole batch: the
connections are answered in the order of their events, each one once,
and no other.
-/
import TrashyServer.Server.Proofs.Run

namespace TrashyServer.Server

open Runs

namespace RunState

/-- The connection behind a descriptor. -/
def number (s : RunState) (fd : Int) : Option Nat :=
  (s.live.find? (·.1 = fd)).map Prod.snd

/-- The connections behind the descriptors of a batch. -/
def reported (s : RunState) (fds : List Int) : List (Option Nat) :=
  (fds.filter (· ≠ s.sockfd)).map s.number

/-- The connections answered so far. -/
def answered (s : RunState) : List (Option Nat) :=
  s.answers.map fun x => some x.1

/-- Taking out the entry of another descriptor. -/
theorem find?_eraseP_ne {live : List (Int × Nat)} {n m : Int} (h : n ≠ m) :
    (live.eraseP (·.1 = m)).find? (·.1 = n) = live.find? (·.1 = n) := by
  induction live with
  | nil => rfl
  | cons x live ih =>
      by_cases hm : x.1 = m
      · have hn : ¬ x.1 = n := fun heq => h (heq.symm.trans hm)
        rw [List.eraseP_cons_of_pos (by simpa using hm),
          List.find?_cons_of_neg (by simpa using hn)]
      · rw [List.eraseP_cons_of_neg (by simpa using hm)]
        by_cases hn : x.1 = n
        · rw [List.find?_cons_of_pos (by simpa using hn),
            List.find?_cons_of_pos (by simpa using hn)]
        · rw [List.find?_cons_of_neg (by simpa using hn),
            List.find?_cons_of_neg (by simpa using hn), ih]

/-- What handling a request has done to the ledger. -/
theorem ledger_handled (s : RunState) (n : Int) (a : Answer) :
    (s.handled n a).sockfd = s.sockfd ∧ (s.handled n a).batch = s.batch
      ∧ (s.handled n a).live = s.live.eraseP (·.1 = n)
      ∧ (s.handled n a).answers
        = s.answers ++ (s.live.find? (·.1 = n)).toList.map fun x =>
          (x.2, a.sent) := by
  unfold handled
  cases a.page with
  | none => exact ⟨rfl, rfl, rfl, rfl⟩
  | some page => exact ⟨rfl, rfl, rfl, rfl⟩

variable {own : List Int} {s s' : RunState}

/-- A step takes one event, answers the connection it was reported for,
and leaves the events behind it with theirs. -/
theorem number_goes {e : Event} (h : Sound own s) (hgoes : s.Goes e s')
    (hwait : ∀ fds, e ≠ .wait fds) :
    ∃ n, s.batch = n :: s'.batch ∧ s'.sockfd = s.sockfd
      ∧ s'.answered = s.answered ++ s.reported [n]
      ∧ ∀ m ∈ s'.batch, m ≠ s.sockfd → s'.number m = s.number m := by
  cases hgoes with
  | waited => exact absurd rfl (hwait _)
  | @accepted fd rest hbatch hfresh =>
      refine ⟨s.sockfd, hbatch, rfl, ?_, ?_⟩
      · have hnone : s.reported [s.sockfd] = [] := by
          unfold reported
          rw [List.filter_cons_of_neg (by simp)]
          rfl
        rw [hnone, List.append_nil]
        rfl
      · intro m hm hne
        have hmem : m ∈ s.batch := by
          rw [hbatch]
          exact List.mem_cons_of_mem _ hm
        have hopen := h.open_of_live (h.live_of_batch hmem hne)
        have hother : ¬ fd = m := fun heq => hfresh (heq ▸ hopen)
        show (((fd, s.accepted) :: s.live).find? (·.1 = m)).map Prod.snd = _
        rw [List.find?_cons_of_neg (by simpa using hother)]
        rfl
  | @handled n rest c a hbatch hn =>
      obtain ⟨hsock, hrest, hlive, hanswers⟩ := ledger_handled (s.take rest) n a
      have hmem : n ∈ s.batch := by
        rw [hbatch]
        exact List.mem_cons_self ..
      obtain ⟨l₁, i, l₂, -, -, -, hfind⟩ := live_split (h.live_of_batch hmem hn)
      refine ⟨n, ?_, hsock, ?_, ?_⟩
      · rw [hbatch, hrest]
        rfl
      · have hone : s.reported [n] = [some i] := by
          unfold reported number
          rw [List.filter_cons_of_pos (by simpa using hn), List.filter_nil,
            List.map_singleton, hfind]
          rfl
        have htaken : (s.take rest).live.find? (·.1 = n) = some (n, i) := hfind
        unfold answered
        rw [hone, hanswers, htaken, List.map_append]
        rfl
      · intro m hm hne
        have hother : m ≠ n := by
          intro heq
          subst heq
          have honce := h.batchOnce
          rw [hbatch] at honce
          rw [hrest] at hm
          exact (List.nodup_cons.mp honce).1 hm
        unfold number
        rw [hlive]
        exact congrArg _ (find?_eraseP_ne hother)

/-- A run that ends with the process alive has only steps that leave it
alive. -/
theorem run_cons_running {e : Event} {es : List Event}
    (h : run step (.running s) (e :: es) = some (.running s')) :
    ∃ s₁, s.Goes e s₁ ∧ run step (.running s₁) es = some (.running s') := by
  rw [run_cons] at h
  obtain ⟨p, hstep, h⟩ := Option.bind_eq_some_iff.mp h
  cases p with
  | running s₁ => exact ⟨s₁, step_goes hstep, h⟩
  | ended cause =>
      cases es with
      | nil => cases h
      | cons e es => cases h

/-- A batch, as far as it has been taken. -/
theorem answered_run {es : List Event} (hes : ∀ e ∈ es, ∀ fds, e ≠ .wait fds) :
    ∀ {s : RunState}, Sound own s →
      run step (.running s) es = some (.running s') →
      ∃ done, s.batch = done ++ s'.batch ∧ done.length = es.length
        ∧ s'.answered = s.answered ++ s.reported done := by
  induction es with
  | nil =>
      intro s _ h
      cases h
      refine ⟨[], rfl, rfl, ?_⟩
      exact (List.append_nil _).symm
  | cons e es ih =>
      intro s h hrun
      obtain ⟨hwait, hes⟩ := List.forall_mem_cons.mp hes
      obtain ⟨s₁, hgoes, hrest⟩ := run_cons_running hrun
      obtain ⟨n, hbatch, hsock, hanswered, hsame⟩ := number_goes h hgoes hwait
      obtain ⟨done, hdone, hlen, hafter⟩ := ih hes (sound_goes h hgoes) hrest
      have hreported : s₁.reported done = s.reported done := by
        unfold reported
        rw [hsock]
        refine List.map_congr_left fun m hm => ?_
        obtain ⟨hin, hne⟩ := List.mem_filter.mp hm
        refine hsame m ?_ (by simpa using hne)
        rw [hdone]
        exact List.mem_append_left _ hin
      have hcons : s.reported (n :: done) = s.reported [n] ++ s.reported done := by
        unfold reported
        rw [← List.map_append, ← List.filter_append]
        rfl
      refine ⟨n :: done, ?_, congrArg (· + 1) hlen, ?_⟩
      · rw [hbatch, hdone]
        rfl
      · rw [hafter, hanswered, hreported, hcons, List.append_assoc]

end RunState

/-- Events are for the connections they were reported for. From any state
of any run, and for as long as the loop goes through one batch: as many
events as it has taken are off the front of the batch, and the
connections answered in the meantime are those that stood behind the
descriptors of these events to begin with, in that order, although
descriptors are closed and given out again in between. -/
theorem answered_as_reported (st : Start) (es : List Event) :
    Always RunState.step
      (Proc.WhileRunning fun s => ∀ es' s',
        (∀ e ∈ es', ∀ fds, e ≠ .wait fds) →
        run RunState.step (.running s) es' = some (.running s') →
        ∃ done, s.batch = done ++ s'.batch ∧ done.length = es'.length
          ∧ s'.answered = s.answered ++ s.reported done)
      st.proc es :=
  always_whileRunning st (sound_start st) RunState.sound_goes
    (fun h _ _ hes hrun => RunState.answered_run hes h hrun) es

end TrashyServer.Server
