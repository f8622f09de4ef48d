/-
What every run of the server keeps: its descriptors, and its
connections.

`Sound` says what is open between two events: what was open before the
first connection, and the connections not yet answered, which with the
listening socket are what epoll watches. So nothing leaks, and
`do_somthing` is called on live connections only, although descriptors
are used again and a batch of events is older than what handling it
does (`descriptors_accounted`).

What the server is for is a desk (Lib/Desk.lean), each connection a
request: `run_refines` follows a run on it, so no connection is answered
twice and none is lost.
-/
import TrashyServer.Server.Proofs.Put
import TrashyServer.Server.Run
import TrashyServer.Lib.Desk
import Mathlib.Logic.Relation

namespace TrashyServer.Server

open Loop (andThen_eq_ok)
open Runs
open Tool

-- ====================================================== the page's descriptor

/-- `try_open` leaves what one of its calls of `open` has answered. -/
theorem tryOpen_fileno (c : Call) (route : Str) :
    ((c.getResponse route).tryOpen c.laterPath c.fs).2.fileno = c.firstOpen.1
      ∨ ((c.getResponse route).tryOpen c.laterPath c.fs).2.fileno
        = c.secondOpen.1 := by
  have hfirst : (c.getResponse route).openName c.fs route
      = (c.firstOpen.2, ⟨route, c.oldStatus, c.firstOpen.1, [cut route]⟩) := rfl
  have hroute : (c.getResponse route).route = route := rfl
  unfold GetResponse.tryOpen
  rw [hroute, hfirst]
  dsimp only
  split
  · exact .inl rfl
  · cases c.firstOpen.2 with
    | enxio | other => exact .inr rfl
    | eacces | eexist | eloop | efault | einval | eperm => exact .inl rfl

/-- No PUT gets as far as an answer. -/
theorem put_no_answer (pagesPath : Str) (stray : UInt8) (statusText : Nat → Str)
    (date : Str) (accepts old : Nat) (store : Store) (utils : Dir.Utils)
    (path data : Str) :
    (PutResponse.new old path data).put pagesPath stray statusText date accepts
      store utils = .error (.library .substrRange) := by
  unfold PutResponse.put
  rw [tryWrite_throws pagesPath stray store utils rfl]
  rfl

theorem respond_put (c : Call) (store : Store) (utils : Dir.Utils)
    (p : HttpParse) (a : Answer) :
    c.respond store utils p .putMethod ≠ some (.ok a) := by
  intro h
  obtain ⟨_, -, h⟩ := andThen_eq_ok.mp h
  obtain ⟨_, -, h⟩ := andThen_eq_ok.mp h
  obtain ⟨_, hput, -⟩ := bind_eq_ok.mp (Option.some.inj h)
  rw [put_no_answer] at hput
  cases hput

/-- What an answer leaves: the files as they were, and of a page the
descriptor that `open` has answered. -/
theorem respond_ok {c : Call} {store : Store} {utils : Dir.Utils}
    {p : HttpParse} {handler : Handler} {a : Answer}
    (h : c.respond store utils p handler = some (.ok a)) :
    a.store = store ∧ a.utils = utils
      ∧ ∀ page, a.page = some page →
        0 < page ∧ (page = c.firstOpen.1 ∨ page = c.secondOpen.1) := by
  cases handler with
  | getMethod =>
      obtain ⟨_, -, h⟩ := andThen_eq_ok.mp h
      obtain ⟨_, -, h⟩ := bind_eq_ok.mp (Option.some.inj h)
      obtain ⟨_, -, h⟩ := bind_eq_ok.mp h
      cases h
      refine ⟨rfl, rfl, fun page hpage => ?_⟩
      dsimp only [pageOf] at hpage
      split at hpage
      · next hpos =>
        cases hpage
        exact ⟨hpos, tryOpen_fileno c p.route⟩
      · cases hpage
  | postMethod =>
      cases h
      exact ⟨rfl, rfl, fun page hpage => nomatch hpage⟩
  | headMethod =>
      obtain ⟨_, -, h⟩ := bind_eq_ok.mp (Option.some.inj h)
      obtain ⟨_, -, h⟩ := bind_eq_ok.mp h
      cases h
      exact ⟨rfl, rfl, fun page hpage => nomatch hpage⟩
  | putMethod => exact absurd h (respond_put c store utils p a)
  | defaultMethod =>
      obtain ⟨_, -, h⟩ := andThen_eq_ok.mp h
      obtain ⟨_, -, h⟩ := andThen_eq_ok.mp h
      obtain ⟨_, -, h⟩ := bind_eq_ok.mp (Option.some.inj h)
      cases h
      exact ⟨rfl, rfl, fun page hpage => nomatch hpage⟩

theorem run_ok {c : Call} {store : Store} {utils : Dir.Utils} {a : Answer}
    (h : c.run store utils = some (.ok a)) :
    a.store = store ∧ a.utils = utils
      ∧ ∀ page, a.page = some page →
        0 < page ∧ (page = c.firstOpen.1 ∨ page = c.secondOpen.1) := by
  unfold Call.run at h
  split at h
  · cases h
  · obtain ⟨_, -, h⟩ := andThen_eq_ok.mp h
    obtain ⟨_, -, h⟩ := andThen_eq_ok.mp h
    obtain ⟨_, -, h⟩ := andThen_eq_ok.mp h
    obtain ⟨_, -, h⟩ := andThen_eq_ok.mp h
    exact respond_ok h

-- ======================================================== the step, inverted

namespace RunState

/-- Everything a step can do that does not end the process. -/
inductive Goes (s : RunState) : Event → RunState → Prop
  | waited {fds : List Int} (hbatch : s.batch = []) (honce : fds.Nodup)
      (hwatched : ∀ fd ∈ fds, fd ∈ s.interest) :
      Goes s (.wait (some fds)) (s.take fds)
  | accepted {fd : Int} {rest : List Int} (hbatch : s.batch = s.sockfd :: rest)
      (hfresh : fd ∉ s.table) :
      Goes s (.accept (some fd) true) ((s.take rest).watch fd)
  | handled {n : Int} {rest : List Int} {c : Call} {a : Answer}
      (hbatch : s.batch = n :: rest) (hn : n ≠ s.sockfd)
      (hfirst : s.canOpen c.firstOpen.1 = true)
      (hsecond : s.canOpen c.secondOpen.1 = true)
      (hrun : (if n ∈ s.table then c else { c with read := none }).run s.store
        s.utils = some (.ok a)) :
      Goes s (.request c) ((s.take rest).handled n a)

theorem step_goes {s s' : RunState} {e : Event}
    (h : step (.running s) e = some (.running s')) : s.Goes e s' := by
  cases e with
  | interrupt => cases h
  | wait fds =>
      simp only [step] at h
      split at h
      · cases h
      · next hbatch =>
        split at h
        · next hcond =>
          cases h
          exact .waited hbatch hcond.2.2.1 hcond.2.2.2
        · cases h
      · cases h
  | accept fd prepared =>
      simp only [step] at h
      split at h
      · cases h
      · next n rest hbatch =>
        split at h
        · next hn =>
          subst hn
          split at h
          · cases h
          · split at h
            · cases h
            · next hfresh =>
              split at h
              · next hprepared =>
                cases h
                rw [hprepared]
                exact .accepted hbatch fun hmem => hfresh (.inr hmem)
              · cases h
        · cases h
  | request c =>
      simp only [step] at h
      split at h
      · cases h
      · next n rest hbatch =>
        split at h
        · next hcond =>
          obtain ⟨r, hr, h⟩ := Option.map_eq_some_iff.mp h
          cases r with
          | error e => cases h
          | ok a =>
              cases h
              exact .handled hbatch hcond.1 hcond.2.1 hcond.2.2 hr
        · cases h

-- ==================================================== what is open in between

/-- What is open between two events, `own` having been open from the
start. -/
structure Sound (own : List Int) (s : RunState) : Prop where
  /-- The connections not yet answered, and what was open before. -/
  table : s.table.Perm (s.live.map Prod.fst ++ own)
  once : s.table.Nodup
  /-- Watched are these connections and the listening socket. -/
  interest : s.interest.Perm (s.live.map Prod.fst ++ [s.sockfd])
  listening : s.sockfd ∈ own
  /-- An event still to be taken is of one of those, and the only one. -/
  batchOnce : s.batch.Nodup
  batch : ∀ fd ∈ s.batch, fd ∈ s.interest

variable {own : List Int} {s : RunState}

/-- An event that is not the listening socket's is a live
connection's. -/
theorem Sound.live_of_batch (h : Sound own s) {n : Int} (hn : n ∈ s.batch)
    (hne : n ≠ s.sockfd) : n ∈ s.live.map Prod.fst := by
  have hmem := h.interest.mem_iff.mp (h.batch n hn)
  rcases List.mem_append.mp hmem with hlive | hsock
  · exact hlive
  · exact absurd (List.mem_singleton.mp hsock) hne

theorem Sound.open_of_live (h : Sound own s) {n : Int}
    (hn : n ∈ s.live.map Prod.fst) : n ∈ s.table :=
  h.table.mem_iff.mpr (List.mem_append_left _ hn)

theorem Sound.open_of_watched (h : Sound own s) {n : Int}
    (hn : n ∈ s.interest) : n ∈ s.table := by
  rcases List.mem_append.mp (h.interest.mem_iff.mp hn) with hlive | hsock
  · exact h.open_of_live hlive
  · rw [List.mem_singleton.mp hsock]
    exact h.table.mem_iff.mpr (List.mem_append_right _ h.listening)

/-- The entry of a live connection in the ledger. -/
theorem live_split {live : List (Int × Nat)} {n : Int}
    (h : n ∈ live.map Prod.fst) :
    ∃ l₁ i l₂, live = l₁ ++ (n, i) :: l₂ ∧ n ∉ l₁.map Prod.fst
      ∧ live.eraseP (·.1 = n) = l₁ ++ l₂
      ∧ live.find? (·.1 = n) = some (n, i) := by
  induction live with
  | nil => cases h
  | cons x live ih =>
      obtain ⟨fd, i⟩ := x
      by_cases hfd : fd = n
      · subst hfd
        exact ⟨[], i, live, rfl, List.not_mem_nil, by simp, by simp⟩
      · have htail : n ∈ live.map Prod.fst := by
          rcases List.mem_cons.mp h with heq | htail
          · exact absurd heq.symm hfd
          · exact htail
        obtain ⟨l₁, j, l₂, rfl, hnot, herase, hfind⟩ := ih htail
        refine ⟨(fd, i) :: l₁, j, l₂, rfl, ?_, ?_, ?_⟩
        · rw [List.map_cons, List.mem_cons, not_or]
          exact ⟨fun heq => hfd heq.symm, hnot⟩
        · rw [List.eraseP_cons_of_neg (by simpa using hfd), herase]
          rfl
        · rw [List.find?_cons_of_neg (by simpa using hfd), hfind]

/-- What handling a request has done, the page's descriptor being one
that was not open. -/
theorem handled_eq {n : Int} {a : Answer} (hn : n ∈ s.table)
    (hwatched : ∀ fd ∈ s.interest, fd ∈ s.table)
    (hpage : ∀ page, a.page = some page → page ∉ s.table) :
    s.handled n a
      = { ({ s with store := a.store, utils := a.utils } : RunState).closeConn n
            a.sent with
          table := s.table.erase n, interest := s.interest.erase n } := by
  unfold handled
  cases hp : a.page with
  | none => rfl
  | some page =>
      have hnew := hpage page hp
      have hne : page ≠ n := fun heq => hnew (heq ▸ hn)
      have htable : ((page :: s.table).erase n).erase page = s.table.erase n := by
        rw [List.erase_cons_tail (by simpa using hne), List.erase_cons_head]
      have hinterest : (s.interest.erase n).erase page = s.interest.erase n :=
        List.erase_of_not_mem fun hmem =>
          hnew (hwatched page (List.mem_of_mem_erase hmem))
      simp only [opened, closeConn, close, htable, hinterest]

/-- The loop's own steps keep it. -/
theorem sound_goes {s' : RunState} {e : Event} (h : Sound own s)
    (hgoes : s.Goes e s') : Sound own s' := by
  cases hgoes with
  | waited hbatch honce hwatched =>
      exact ⟨h.table, h.once, h.interest, h.listening, honce, hwatched⟩
  | @accepted fd rest hbatch hfresh =>
      have hrest : (s.sockfd :: rest).Nodup := hbatch ▸ h.batchOnce
      refine ⟨h.table.cons fd, List.nodup_cons.mpr ⟨hfresh, h.once⟩,
        h.interest.cons fd, h.listening, (List.nodup_cons.mp hrest).2, ?_⟩
      intro n hn
      refine List.mem_cons_of_mem _ (h.batch n ?_)
      rw [hbatch]
      exact List.mem_cons_of_mem _ hn
  | @handled n rest c a hbatch hn hfirst hsecond hrun =>
      have hmem : n ∈ s.batch := by
        rw [hbatch]
        exact List.mem_cons_self ..
      have hlive := h.live_of_batch hmem hn
      have hopen := h.open_of_live hlive
      rw [if_pos hopen] at hrun
      obtain ⟨-, -, hpage⟩ := run_ok hrun
      have hnew : ∀ page, a.page = some page → page ∉ s.table := by
        intro page hp
        obtain ⟨hpos, heq⟩ := hpage page hp
        have hone : s.canOpen page = true := by
          rcases heq with rfl | rfl
          · exact hfirst
          · exact hsecond
        unfold canOpen at hone
        rw [Bool.or_eq_true, decide_eq_true_eq] at hone
        rcases hone with hneg | hfresh
        · omega
        · simpa using (Bool.and_eq_true_iff.mp hfresh).2
      rw [handled_eq (s := s.take rest) hopen (fun fd => h.open_of_watched) hnew]
      obtain ⟨l₁, i, l₂, hsplit, hnot, herase, -⟩ := live_split hlive
      have hrest : (n :: rest).Nodup := hbatch ▸ h.batchOnce
      have hdrop : ∀ tl : List Int,
          ((l₁ ++ (n, i) :: l₂).map Prod.fst ++ tl).erase n
            = (l₁ ++ l₂).map Prod.fst ++ tl := by
        intro tl
        rw [List.map_append, List.map_cons, List.append_assoc,
          List.erase_append_right _ hnot, List.cons_append,
          List.erase_cons_head, List.map_append, List.append_assoc]
      refine ⟨?_, h.once.erase n, ?_, h.listening, (List.nodup_cons.mp hrest).2,
        ?_⟩
      · show (s.table.erase n).Perm ((s.live.eraseP _).map Prod.fst ++ own)
        rw [herase, ← hdrop, ← hsplit]
        exact h.table.erase n
      · show (s.interest.erase n).Perm
          ((s.live.eraseP _).map Prod.fst ++ [s.sockfd])
        rw [herase, ← hdrop, ← hsplit]
        exact h.interest.erase n
      · intro fd hfd
        have hne : fd ≠ n := fun heq =>
          (List.nodup_cons.mp hrest).1 (heq ▸ hfd)
        refine (List.mem_erase_of_ne hne).mpr (h.batch fd ?_)
        rw [hbatch]
        exact List.mem_cons_of_mem _ hfd

-- ============================================================== as a desk

/-- The connections of a server are the requests of a desk. -/
structure At (s : RunState) (d : Desk Str) : Prop where
  next : d.next = s.accepted
  waiting : d.waiting = s.live.map Prod.snd
  answered : d.answered = s.answers

/-- A step of the server is a step of the desk, or one that the desk
does not see. -/
theorem at_goes {d : Desk Str} {s' : RunState} {e : Event} (h : Sound own s)
    (hat : s.At d) (hgoes : s.Goes e s') :
    ∃ d', s'.At d' ∧ (d' = d ∨ Desk.Step d d') := by
  obtain ⟨hnext, hwaiting, hanswered⟩ := hat
  cases hgoes with
  | waited => exact ⟨d, ⟨hnext, hwaiting, hanswered⟩, .inl rfl⟩
  | @accepted fd rest =>
      refine ⟨d.arrive, ⟨?_, ?_, hanswered⟩, .inr (.arrive d)⟩
      · exact congrArg (· + 1) hnext
      · show d.next :: d.waiting = s.accepted :: s.live.map Prod.snd
        rw [hnext, hwaiting]
  | @handled n rest c a hbatch hn =>
      have hmem : n ∈ s.batch := by
        rw [hbatch]
        exact List.mem_cons_self ..
      obtain ⟨l₁, i, l₂, hsplit, -, herase, hfind⟩ :=
        live_split (h.live_of_batch hmem hn)
      have hlist : d.waiting = l₁.map Prod.snd ++ i :: l₂.map Prod.snd := by
        rw [hwaiting, hsplit, List.map_append, List.map_cons]
      have hin : i ∈ d.waiting := by
        rw [hlist]
        exact List.mem_append_right _ (List.mem_cons_self ..)
      have hnot : i ∉ l₁.map Prod.snd := by
        have hnodup := (List.nodup_append.mp d.nodup).1
        rw [hlist] at hnodup
        exact fun hi => (List.nodup_append.mp hnodup).2.2 i hi i
          (List.mem_cons_self ..) rfl
      have hledger : ((s.take rest).handled n a).accepted = s.accepted
          ∧ ((s.take rest).handled n a).live = s.live.eraseP (·.1 = n)
          ∧ ((s.take rest).handled n a).answers
            = s.answers ++ (s.live.find? (·.1 = n)).toList.map fun x =>
              (x.2, a.sent) := by
        unfold handled
        cases a.page with
        | none => exact ⟨rfl, rfl, rfl⟩
        | some page => exact ⟨rfl, rfl, rfl⟩
      refine ⟨d.answer i hin a.sent, ⟨?_, ?_, ?_⟩, .inr (.answer d i hin a.sent)⟩
      · exact hnext.trans hledger.1.symm
      · rw [hledger.2.1, herase]
        show d.waiting.erase i = _
        rw [hlist, List.erase_append_right _ hnot, List.erase_cons_head,
          List.map_append]
      · rw [hledger.2.2, hfind]
        show d.answered ++ [(i, a.sent)] = _
        rw [hanswered]
        rfl

end RunState

-- ================================================================== any run

/-- How a process starts: with some descriptors open, the listening one
among them. -/
structure Start where
  sockfd : Int
  own : List Int
  store : Store
  utils : Dir.Utils
  distinct : own.Nodup
  listening : sockfd ∈ own

/-- The standard streams, the listening socket and epoll's descriptor are
open, and there are no files. -/
def Start.bare : Start where
  sockfd := 3
  own := [0, 1, 2, 3, 4]
  store := ⟨fun _ => none, fun _ => [], fun _ => true, fun _ => true⟩
  utils := .start
  distinct := by decide
  listening := by decide

/-- Before the first `epoll_wait`. -/
def Start.proc (st : Start) : Proc :=
  .running (RunState.start st.sockfd st.own st.store st.utils)

/-- A property of the server while it runs. -/
def Proc.WhileRunning (Q : RunState → Prop) (p : Proc) : Prop :=
  ∀ s, p = .running s → Q s

/-- What the steps that do not end the process keep, a run keeps while
it lasts. -/
theorem whileRunning_step {I : RunState → Prop}
    (hkeep : ∀ {s s' : RunState} {e : Event}, I s → s.Goes e s' → I s')
    {p p' : Proc} {e : Event} (h : p.WhileRunning I)
    (hstep : RunState.step p e = some p') : p'.WhileRunning I := by
  intro s' hs'
  subst hs'
  cases p with
  | ended e' => cases hstep
  | running s => exact hkeep (h s rfl) (RunState.step_goes hstep)

theorem always_whileRunning (st : Start) {I Q : RunState → Prop}
    (hstart : I (RunState.start st.sockfd st.own st.store st.utils))
    (hkeep : ∀ {s s' : RunState} {e : Event}, I s → s.Goes e s' → I s')
    (hQ : ∀ {s}, I s → Q s) (es : List Event) :
    Always RunState.step (Proc.WhileRunning Q) st.proc es :=
  always_of_invariant (whileRunning_step hkeep)
    (fun h s hs => hQ (h s hs))
    (fun s hs => by
      cases hs
      exact hstart)

theorem sound_start (st : Start) :
    RunState.Sound st.own
      (RunState.start st.sockfd st.own st.store st.utils) :=
  ⟨List.Perm.refl _, st.distinct, List.Perm.refl _, st.listening, List.nodup_nil,
    fun _ h => nomatch h⟩

/-- Descriptors are accounted for: between any two events of any run the
process has open what it started with and one descriptor for each
connection it has accepted and not answered, epoll watches the listening
socket and these connections, and every event still to be taken is of
one of them. No page's and no answered connection's descriptor is left
open, and none is read or closed that is not a live connection's. -/
theorem descriptors_accounted (st : Start) (es : List Event) :
    Always RunState.step
      (Proc.WhileRunning fun s =>
        s.table.Perm (s.live.map Prod.fst ++ st.own) ∧ s.table.Nodup
          ∧ s.interest.Perm (s.live.map Prod.fst ++ [s.sockfd])
          ∧ ∀ fd ∈ s.batch, fd ≠ s.sockfd → fd ∈ s.live.map Prod.fst)
      st.proc es :=
  always_whileRunning st (sound_start st) RunState.sound_goes
    (fun h => ⟨h.table, h.once, h.interest, fun _ hn hne =>
      h.live_of_batch hn hne⟩) es

/-- Connections are answered once: a run of the server is one of a desk
whose requests are the connections, so at any time the connections
accepted are those waiting and those answered, and each of them is one
or the other, once. -/
theorem run_refines (st : Start) (es : List Event) :
    Always RunState.step
      (Proc.WhileRunning fun s =>
        (∃ d, Relation.ReflTransGen Desk.Step Desk.opened d ∧ s.At d)
          ∧ (s.live.map Prod.snd ++ s.answers.map Prod.fst).Perm
            (List.range s.accepted))
      st.proc es := by
  refine always_whileRunning st
    (I := fun s => s.Sound st.own
      ∧ ∃ d, Relation.ReflTransGen Desk.Step Desk.opened d ∧ s.At d)
    ⟨sound_start st, Desk.opened, .refl, rfl, rfl, rfl⟩ ?_ ?_ es
  · intro s s' e hs hgoes
    obtain ⟨hsound, d, hd, hat⟩ := hs
    obtain ⟨d', hat', hstep⟩ := RunState.at_goes hsound hat hgoes
    refine ⟨RunState.sound_goes hsound hgoes, d', ?_, hat'⟩
    rcases hstep with rfl | hstep
    · exact hd
    · exact hd.tail hstep
  · intro s hs
    obtain ⟨-, d, hd, hat⟩ := hs
    refine ⟨⟨d, hd, hat⟩, ?_⟩
    rw [← hat.waiting, ← hat.answered, ← hat.next]
    exact d.law

/-- No run changes a file: whatever was requested, the files and the
globals of the search are what they were, for as long as the process
runs. -/
theorem files_kept (st : Start) (es : List Event) :
    Always RunState.step
      (Proc.WhileRunning fun s => s.store = st.store ∧ s.utils = st.utils)
      st.proc es := by
  refine always_whileRunning st ⟨rfl, rfl⟩ ?_ id es
  intro s s' e hs hgoes
  obtain ⟨hstore, hutils⟩ := hs
  cases hgoes with
  | waited | accepted => exact ⟨hstore, hutils⟩
  | @handled n rest c a hbatch hn hfirst hsecond hrun =>
      obtain ⟨hsame, hsame', -⟩ := run_ok hrun
      have hleft : ((s.take rest).handled n a).store = a.store
          ∧ ((s.take rest).handled n a).utils = a.utils := by
        unfold RunState.handled
        cases a.page with
        | none => exact ⟨rfl, rfl⟩
        | some page => exact ⟨rfl, rfl⟩
      exact ⟨hleft.1.trans (hsame.trans hstore),
        hleft.2.trans (hsame'.trans hutils)⟩

end TrashyServer.Server
