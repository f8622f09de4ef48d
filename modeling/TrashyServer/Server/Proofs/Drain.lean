/-
A batch is worked off.

The other results on runs say what no run does. This one says that the
loop gets through: in whatever state a run has come to, the events still
to be taken can be taken, one after the other, down to the last, and
every connection among them is answered.

It takes a `World` that does its part. `accept` gives out a descriptor
that is not open, as the kernel does, and the requests are harmless
(`Call.Harmless`): nothing in them leads the log astray, their clients
stay until they are answered, and the configuration can be read when it
is asked for. What else they are, and whether their pages are there, is
left to it. That the server can then go on is `goes_on`: its
own state never stands in the way. The induction is on what is left of
the batch, which every event makes shorter by one (`number_goes`).
-/
import TrashyServer.Server.Proofs.Batch
import TrashyServer.Server.Proofs.Survive

namespace TrashyServer.Server

open Runs
open Tool

-- ================================================================= the world

/-- What the kernel and the clients do next, by the server's state. -/
structure World where
  fresh : RunState → Int
  call : RunState → Call
  /-- `accept` gives out what is not open, -/
  unused : ∀ s : RunState, 0 ≤ fresh s ∧ fresh s ∉ s.table
  /-- and so does `open`. -/
  opens : ∀ s : RunState, s.canOpen (call s).firstOpen.1 = true
    ∧ s.canOpen (call s).secondOpen.1 = true
  harmless : ∀ s : RunState, ∃ d t, (call s).Harmless d t

namespace World

variable (w : World)

/-- The event that a reported descriptor leads to. -/
def next (s : RunState) (n : Int) : Event :=
  if n = s.sockfd then .accept (some (w.fresh s)) true else .request (w.call s)

/-- The event is the one that is due. -/
def Due (p : Proc) (e : Event) : Prop :=
  ∃ s n rest, p = .running s ∧ s.batch = n :: rest ∧ e = w.next s n

theorem next_ne_wait (s : RunState) (n : Int) (fds : Option (List Int)) :
    w.next s n ≠ .wait fds := by
  unfold next
  split
  · exact fun h => nomatch h
  · exact fun h => nomatch h

end World

-- =============================================================== one event

namespace RunState

variable {own : List Int} {s : RunState}

/-- What the loop does with the listening socket's event. -/
theorem step_accept (s : RunState) (fd : Option Int) (prepared : Bool) :
    step (.running s) (.accept fd prepared)
      = match s.batch with
        | [] => none
        | n :: rest =>
            if n = s.sockfd then
              match fd with
              | none => some (.ended .exit)
              | some fd =>
                  if fd < 0 ∨ fd ∈ s.table then none
                  else if prepared then some (.running ((s.take rest).watch fd))
                  else some (.ended .exit)
            else none := rfl

/-- The server takes the event that is due, and goes on. -/
theorem goes_on (w : World) (h : Sound own s) {n : Int} {rest : List Int}
    (hbatch : s.batch = n :: rest) :
    ∃ s', step (.running s) (w.next s n) = some (.running s')
      ∧ s'.batch = rest := by
  obtain ⟨s', hstep⟩ : ∃ s', step (.running s) (w.next s n)
      = some (.running s') := by
    unfold World.next
    split
    · next hn =>
      obtain ⟨hpos, hfresh⟩ := w.unused s
      have hopen : ¬ (w.fresh s < 0 ∨ w.fresh s ∈ s.table) := by
        intro hor
        rcases hor with hneg | hmem
        · omega
        · exact hfresh hmem
      rw [step_accept, hbatch]
      dsimp only
      rw [if_pos hn, if_neg hopen]
      exact ⟨_, rfl⟩
    · next hn =>
      obtain ⟨hfirst, hsecond⟩ := w.opens s
      exact (request_iff h hbatch hn hfirst hsecond).mpr (w.harmless s)
  refine ⟨s', hstep, ?_⟩
  obtain ⟨m, hm, -⟩ := number_goes h (step_goes hstep) (w.next_ne_wait s n)
  exact (List.cons.inj (hm.symm.trans hbatch)).2

/-- And so to the end of the batch. -/
theorem run_drains (w : World) (batch : List Int) :
    ∀ {s : RunState}, Sound own s → s.batch = batch →
      ∃ es s', run step (.running s) es = some (.running s')
        ∧ Along step w.Due (.running s) es
        ∧ (∀ e ∈ es, ∀ fds, e ≠ .wait fds) ∧ s'.batch = [] := by
  induction batch with
  | nil =>
      intro s _ hbatch
      exact ⟨[], s, rfl, trivial, fun e he => (List.not_mem_nil he).elim, hbatch⟩
  | cons n rest ih =>
      intro s h hbatch
      obtain ⟨s₁, hstep, hrest⟩ := goes_on w h hbatch
      obtain ⟨es, s', hrun, hdue, hwait, hend⟩ :=
        ih (sound_goes h (step_goes hstep)) hrest
      refine ⟨w.next s n :: es, s', ?_, ?_, ?_, hend⟩
      · rw [run_cons_some es hstep]
        exact hrun
      · exact (along_cons_iff es hstep).mpr
          ⟨⟨s, n, rest, rfl, hbatch, rfl⟩, hdue⟩
      · exact List.forall_mem_cons.mpr ⟨w.next_ne_wait s n, hwait⟩

end RunState

/-- The server gets through: in every state of every run, the events that
are due in a world that does its part can be taken to the end of the
batch, one for each descriptor reported and not yet taken, and they
answer exactly the connections behind these, in that order. -/
theorem batch_worked_off (w : World) (st : Start) (es : List Event) :
    Always RunState.step
      (Proc.WhileRunning fun s => ∃ es' s',
        run RunState.step (.running s) es' = some (.running s')
          ∧ Along RunState.step w.Due (.running s) es'
          ∧ es'.length = s.batch.length ∧ s'.batch = []
          ∧ s'.answered = s.answered ++ s.reported s.batch)
      st.proc es := by
  refine always_whileRunning st (sound_start st) RunState.sound_goes ?_ es
  intro s h
  obtain ⟨es', s', hrun, hdue, hwait, hend⟩ := RunState.run_drains w s.batch h rfl
  obtain ⟨done, hdone, hlen, hanswered⟩ := RunState.answered_run hwait h hrun
  rw [hend, List.append_nil] at hdone
  subst hdone
  exact ⟨es', s', hrun, hdue, hlen.symm, hend, hanswered⟩

-- =========================================================== one such world

/-- A configuration of one line. -/
def oneLine : ConfigRead :=
  ⟨.opens (bytes "html_pages:www") .endOfFile,
    .opens (bytes "html_pages:www") .endOfFile, 4, 0⟩

/-- A POST, which is answered by nothing. -/
def Call.post : Call where
  raw := ⟨0, none⟩
  buff := []
  behind := []
  interrupts := 0
  read := some (bytes "POST / HTTP/1.1\r\n\r\n" ++ [nul])
  config := oneLine
  configAgain := oneLine
  oldStatus := 0
  oldFileno := 0
  heap := ⟨List.replicate headerSize nul, List.length_replicate, []⟩
  statusText := fun _ => []
  date := []
  stray := 0
  firstOpen := (-1, .other)
  secondOpen := (-1, .other)
  pages := ⟨fun _ => [], fun _ =>
    ⟨[], fun _ h => absurd h List.not_mem_nil,
      fun _ h => absurd h List.not_mem_nil, List.prefix_refl _⟩⟩
  index := .openFails
  pageBuff := []
  pageBehind := []
  rounds := 0
  accepts := 0
  zero := false
  reset := false
  file := serverCpp
  toolFile := toolUtilCpp
  object := fun _ => ⟨[], List.not_mem_nil⟩
  time := epoch

theorem post_harmless : Call.post.Harmless
    (bytes "POST / HTTP/1.1\r\n\r\n" ++ [nul]) (bytes "/") := by
  have hmethod : Call.post.method (bytes "POST / HTTP/1.1\r\n\r\n" ++ [nul])
      = some .post := by decide +kernel
  have hneeds : ¬ NeedsPath (Call.post.method
      (bytes "POST / HTTP/1.1\r\n\r\n" ++ [nul])) := by
    rw [hmethod]
    intro h
    rcases h with hget | hput
    · cases hget
    · cases hput
  refine ⟨⟨rfl, by decide +kernel, by decide +kernel, by decide,
    by decide +kernel, fun h => absurd h hneeds, ?_⟩, ?_,
    fun h => absurd h hneeds, ?_⟩
  · rw [hmethod]
    exact trivial
  · intro i line _ _
    exact rfl
  · rw [hmethod]
    exact trivial

/-- The largest of the descriptors, or 0. -/
def largest (table : List Int) : Int := table.foldr max 0

theorem le_largest {n : Int} {table : List Int} (h : n ∈ table) :
    n ≤ largest table := by
  induction table with
  | nil => cases h
  | cons m table ih =>
      show n ≤ max m (largest table)
      rcases List.mem_cons.mp h with rfl | hmem
      · exact Int.le_max_left ..
      · exact Int.le_trans (ih hmem) (Int.le_max_right ..)

/-- Clients that all send a POST. -/
def World.posts : World where
  fresh := fun s => max 0 (largest s.table + 1)
  call := fun _ => .post
  unused := by
    intro s
    refine ⟨Int.le_max_left .., fun hmem => ?_⟩
    have hle := le_largest hmem
    omega
  opens := fun _ => ⟨rfl, rfl⟩
  harmless := fun _ => ⟨_, _, post_harmless⟩

end TrashyServer.Server
