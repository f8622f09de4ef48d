/-
What becomes of the directory handles.

`list_them` pushes a handle for every subdirectory it goes down to and
closes none; `release_dir` closes what was pushed, once for each push, as
long as none comes a second time (`release_iff`). So of all handles the
last one opened is never pushed, a directory without subdirectories
leaving no trace on the stack (`Listed.pushed`), and no search closes it.
One that throws does not get to `release_dir` and has closed nothing
(`Listed.closed`).

A search is balanced only if it opens nothing (`balanced_iff`).
-/
import TrashyServer.Dir.Model

namespace TrashyServer.Dir

-- ============================================================== the ledger

/-- Every handle pushed or closed has been opened. -/
structure Issued (s : Utils) : Prop where
  pushed : ∀ h ∈ s.storageRoot, h < s.opened
  closed : ∀ h ∈ s.closed, h < s.opened

/-- What listing does to the ledger. -/
structure Listed (s : Utils) (x : Exit) (s' : Utils) : Prop where
  opened : s.opened ≤ s'.opened
  closed : s'.closed = s.closed
  issued : Issued s → Issued s'
  /-- Behind a handle that is pushed another one is opened. -/
  pushed : x = .returned →
    ∀ h ∈ s'.storageRoot, h ∈ s.storageRoot ∨ h + 1 < s'.opened

theorem Listed.refl (s : Utils) (x : Exit) : Listed s x s :=
  ⟨Nat.le_refl _, rfl, fun hs => hs, fun _ _ hmem => .inl hmem⟩

theorem Listed.trans {s s' s'' : Utils} {x : Exit}
    (h : Listed s .returned s') (h' : Listed s' x s'') : Listed s x s'' := by
  refine ⟨Nat.le_trans h.opened h'.opened, h'.closed.trans h.closed,
    fun hs => h'.issued (h.issued hs), ?_⟩
  intro hx handle hmem
  rcases h'.pushed hx handle hmem with hin | hlt
  · rcases h.pushed rfl handle hin with hin | hlt
    · exact .inl hin
    · right
      have hle := h'.opened
      omega
  · exact .inr hlt

theorem Issued.push {s : Utils} {dp : Nat} (hs : Issued s)
    (hdp : dp < s.opened) : Issued (s.push dp) := by
  refine ⟨?_, hs.closed⟩
  intro h hmem
  rcases List.mem_cons.mp hmem with rfl | hmem
  · exact hdp
  · exact hs.pushed h hmem

theorem Issued.ask {s : Utils} (hs : Issued s) (path : Str) :
    Issued (s.ask path) := ⟨hs.pushed, hs.closed⟩

theorem Issued.issue {s : Utils} (hs : Issued s) : Issued s.issue :=
  ⟨fun h hmem => Nat.lt_succ_of_lt (hs.pushed h hmem),
    fun h hmem => Nat.lt_succ_of_lt (hs.closed h hmem)⟩

/-- Going down to a subdirectory: the handle is pushed, and another one
opened or none. -/
theorem listed_opendir {fails : Str → Bool} {path : Str}
    {loop : Nat → Utils → Exit × Utils} {dp : Nat} {s : Utils}
    (hdp : dp < s.opened)
    (hloop : ∀ s : Utils, Listed s.issue (loop s.opened s.issue).1
      (loop s.opened s.issue).2) :
    Listed s (opendir fails path loop (s.push dp)).1
      (opendir fails path loop (s.push dp)).2 := by
  unfold opendir
  split
  · have hopen := hloop ((s.push dp).ask path)
    refine ⟨Nat.le_trans (Nat.le_succ _) hopen.opened, hopen.closed,
      fun hs => hopen.issued ((hs.push hdp).ask path).issue, ?_⟩
    intro hx h hmem
    rcases hopen.pushed hx h hmem with hin | hlt
    · rcases List.mem_cons.mp hin with rfl | hin
      · right
        have hle : s.opened + 1 ≤ _ := hopen.opened
        exact Nat.lt_of_lt_of_le (Nat.succ_lt_succ hdp) hle
      · exact .inl hin
    · exact .inr hlt
  · refine ⟨Nat.le_refl _, rfl, fun hs => (hs.push hdp).ask path, ?_⟩
    intro hx
    cases hx

section

variable (fails : Str → Bool) (checkAll : Bool) (target : Str)

mutual

/-- One entry, whatever is below it. -/
theorem listed_readEntry (entry : Entry) (dp : Nat) (dir : Str) (s : Utils)
    (hdp : dp < s.opened) :
    Listed s (readEntry fails checkAll target dp dir entry s).1
      (readEntry fails checkAll target dp dir entry s).2 := by
  cases entry with
  | other dName =>
      rw [readEntry]
      split
      · exact .refl s _
      · split
        · exact ⟨Nat.le_refl _, rfl, fun hs => ⟨hs.pushed, hs.closed⟩,
            fun _ _ hmem => .inl hmem⟩
        · exact .refl s _
  | directory dName entries =>
      cases hdots : isDots dName with
      | true =>
          rw [readEntry, hdots]
          exact .refl s _
      | false =>
          rw [readEntry_directory _ _ _ hdots, listThem]
          apply listed_opendir hdp
          intro s
          exact listed_readEntries entries s.opened _ s.issue
            (Nat.lt_succ_self _)

/-- The entries in turn. -/
theorem listed_readEntries (entries : List Entry) (dp : Nat) (dir : Str)
    (s : Utils) (hdp : dp < s.opened) :
    Listed s (readEntries fails checkAll target dp dir entries s).1
      (readEntries fails checkAll target dp dir entries s).2 := by
  cases entries with
  | nil =>
      rw [readEntries]
      exact .refl s _
  | cons entry entries =>
      have hentry := listed_readEntry entry dp dir s hdp
      rw [readEntries]
      generalize readEntry fails checkAll target dp dir entry s = r at hentry ⊢
      obtain ⟨x, s'⟩ := r
      cases x with
      | threw => exact hentry
      | aborted => exact hentry
      | returned =>
          have hdp' : dp < s'.opened := Nat.lt_of_lt_of_le hdp hentry.opened
          exact hentry.trans (listed_readEntries entries dp dir s' hdp')

end

end

-- ================================================================ release_dir

/-- What releasing does to the ledger: it closes what is on the stack and
takes it from there. -/
structure Released (stack : List Nat) (s s' : Utils) : Prop where
  fileFound : s'.fileFound = s.fileFound
  asked : s'.asked = s.asked
  opened : s'.opened = s.opened
  pushed : ∀ h ∈ s'.storageRoot, h ∈ s.storageRoot
  closed : ∀ h ∈ s'.closed, h ∈ s.closed ∨ h ∈ stack

/-- One turn of the loop. -/
theorem Released.close {tmp : Nat} {rest : List Nat} {s s' : Utils}
    (h : Released rest (s.close tmp).pop s') : Released (tmp :: rest) s s' := by
  refine ⟨h.fileFound, h.asked, h.opened, ?_, ?_⟩
  · intro handle hmem
    exact List.mem_of_mem_tail (h.pushed handle hmem)
  · intro handle hmem
    rcases h.closed handle hmem with hmem | hmem
    · rcases List.mem_append.mp hmem with hmem | hmem
      · exact .inl hmem
      · right
        rw [List.mem_singleton.mp hmem]
        exact List.mem_cons_self ..
    · exact .inr (List.mem_cons_of_mem _ hmem)

/-- All turns, up to the end of the stack or of the process. -/
theorem released_release (stack : List Nat) :
    ∀ s : Utils, Released stack s (release stack s).2 := by
  induction stack with
  | nil =>
      intro s
      exact ⟨rfl, rfl, rfl, fun _ hmem => hmem, fun _ hmem => .inl hmem⟩
  | cons tmp rest ih =>
      intro s
      unfold release
      split
      · refine ⟨rfl, rfl, rfl, fun _ hmem => hmem, ?_⟩
        intro handle hmem
        rcases List.mem_append.mp hmem with hmem | hmem
        · exact .inl hmem
        · right
          rw [List.mem_singleton.mp hmem]
          exact List.mem_cons_self ..
      · exact (ih _).close

/-- Releasing comes back exactly when no handle is on the stack twice and
none of them has been closed before. -/
theorem release_iff (stack : List Nat) :
    ∀ s : Utils, (release stack s).1 = .returned
      ↔ stack.Nodup ∧ ∀ h ∈ stack, h ∉ s.closed := by
  induction stack with
  | nil =>
      intro s
      exact iff_of_true rfl ⟨List.nodup_nil, fun _ hmem => nomatch hmem⟩
  | cons tmp rest ih =>
      intro s
      unfold release
      rw [List.nodup_cons, List.forall_mem_cons]
      split
      · rename_i hclosed
        refine iff_of_false (fun h => by cases h) ?_
        intro h
        exact h.2.1 hclosed
      · rename_i hopen
        rw [ih]
        have hmem : ∀ h, h ∉ (s.close tmp).pop.closed
            ↔ h ∉ s.closed ∧ h ≠ tmp := by
          intro h
          show h ∉ s.closed ++ [tmp] ↔ _
          rw [List.mem_append, List.mem_singleton, not_or]
        simp only [hmem]
        constructor
        · intro h
          obtain ⟨hnodup, hrest⟩ := h
          exact ⟨⟨fun hin => (hrest tmp hin).2 rfl, hnodup⟩, hopen,
            fun h hin => (hrest h hin).1⟩
        · intro h
          obtain ⟨⟨hnotin, hnodup⟩, -, hrest⟩ := h
          refine ⟨hnodup, fun h hin => ⟨hrest h hin, ?_⟩⟩
          rintro rfl
          exact hnotin hin

-- =============================================================== the searches

/-- Every handle opened during the call has been closed exactly once, and
the stack is empty. -/
def Balanced (c : Call) (s : Utils) : Prop :=
  (∀ h, s.opened ≤ h → h < (c.run s).2.opened →
    (c.run s).2.closed.count h = 1)
  ∧ (c.run s).2.storageRoot = []

theorem run_of_not_opens {c : Call} (h : opens c.fails c.dir = false)
    (s : Utils) :
    c.run s = (.threw, { s with fileFound := false }.ask c.dir) := by
  unfold Call.run listThem opendir
  rw [h]
  rfl

/-- Listing that starts with an open directory. -/
theorem listed_of_opens {c : Call} (h : opens c.fails c.dir = true)
    (s : Utils) :
    ∃ x s', listThem c.fails c.checkAll c.target c.dir c.entries s = (x, s')
      ∧ Listed (s.ask c.dir).issue x s' := by
  unfold listThem opendir
  rw [if_pos h]
  exact ⟨_, _, rfl, listed_readEntries _ _ _ c.entries _ _
    (s.ask c.dir).issue (Nat.lt_succ_self _)⟩

/-- Behind the listing handles are only closed, and only those on the
stack. -/
theorem released_run {c : Call} {s : Utils} {x : Exit} {s' : Utils}
    (h : listThem c.fails c.checkAll c.target c.dir c.entries
      { s with fileFound := false } = (x, s')) :
    Released s'.storageRoot s' (c.run s).2 := by
  unfold Call.run
  rw [h]
  cases x with
  | returned => exact released_release _ s'
  | threw =>
      exact ⟨rfl, rfl, rfl, fun _ hmem => hmem, fun _ hmem => .inl hmem⟩
  | aborted =>
      exact ⟨rfl, rfl, rfl, fun _ hmem => hmem, fun _ hmem => .inl hmem⟩

/-- A search keeps the ledger. -/
theorem issued_run (c : Call) {s : Utils} (hs : Issued s) :
    Issued (c.run s).2 := by
  have hs : Issued { s with fileFound := false } := ⟨hs.pushed, hs.closed⟩
  cases hstart : opens c.fails c.dir with
  | false =>
    rw [run_of_not_opens hstart]
    exact hs.ask c.dir
  | true =>
    obtain ⟨x, s', hlist, hlisted⟩ :=
      listed_of_opens hstart { s with fileFound := false }
    have hs' := hlisted.issued (hs.ask c.dir).issue
    have hrel := released_run hlist
    constructor
    · intro h hmem
      rw [hrel.opened]
      exact hs'.pushed h (hrel.pushed h hmem)
    · intro h hmem
      rw [hrel.opened]
      rcases hrel.closed h hmem with hmem | hmem
      · exact hs'.closed h hmem
      · exact hs'.pushed h hmem

theorem issued_runs (calls : List Call) :
    ∀ {s : Utils}, Issued s → Issued (runs calls s) := by
  induction calls with
  | nil =>
      intro s hs
      exact hs
  | cons c calls ih =>
      intro s hs
      exact ih (issued_run c hs)

theorem issued_start : Issued .start :=
  ⟨fun _ hmem => absurd hmem List.not_mem_nil,
    fun _ hmem => absurd hmem List.not_mem_nil⟩

/-- A search that opens its directory leaves a handle open. -/
theorem leaks_of_opens {c : Call} (hstart : opens c.fails c.dir = true)
    {s : Utils} (hs : Issued s) :
    ∃ h, s.opened ≤ h ∧ h < (c.run s).2.opened ∧ h ∉ (c.run s).2.closed := by
  obtain ⟨x, s', hlist, hlisted⟩ :=
    listed_of_opens hstart { s with fileFound := false }
  have hrel := released_run hlist
  have hopened : s.opened + 1 ≤ s'.opened := hlisted.opened
  have hold : ∀ h, s.opened ≤ h → h ∉ s'.closed := by
    intro h hle hin
    rw [hlisted.closed] at hin
    exact absurd (hs.closed h hin) (Nat.not_lt.mpr hle)
  have hleaks : ∀ h, s.opened ≤ h → h < s'.opened → h ∉ (c.run s).2.closed →
      ∃ h, s.opened ≤ h ∧ h < (c.run s).2.opened
        ∧ h ∉ (c.run s).2.closed := by
    intro h hle hlt hno
    rw [hrel.opened]
    exact ⟨h, hle, hlt, hno⟩
  by_cases hx : x = .returned
  · -- the last handle: it has not been pushed
    refine hleaks (s'.opened - 1) (by omega) (by omega) ?_
    intro hin
    rcases hrel.closed _ hin with hin | hin
    · exact hold _ (by omega) hin
    · rcases hlisted.pushed hx _ hin with hin | hlt
      · have hlt := hs.pushed _ hin
        omega
      · omega
  · -- the first handle: nothing has been closed
    refine hleaks s.opened (Nat.le_refl _) hopened ?_
    have hrun : c.run s = (x, s') := by
      unfold Call.run
      rw [hlist]
      cases x with
      | returned => exact absurd rfl hx
      | threw => rfl
      | aborted => rfl
    rw [hrun]
    exact hold _ (Nat.le_refl _)

/-- After any searches, the next one is balanced exactly when it opens
nothing and nothing was left on the stack. -/
theorem balanced_iff (history : List Call) (c : Call) :
    Balanced c (runs history .start)
      ↔ opens c.fails c.dir = false
        ∧ (runs history .start).storageRoot = [] := by
  have hs := issued_runs history issued_start
  generalize runs history .start = s at hs ⊢
  unfold Balanced
  constructor
  · intro h
    obtain ⟨hcount, hempty⟩ := h
    have hstart : opens c.fails c.dir = false := by
      by_contra hopen
      obtain ⟨handle, hle, hlt, hno⟩ :=
        leaks_of_opens ((Bool.not_eq_false _).mp hopen) hs
      have hone := hcount handle hle hlt
      rw [List.count_eq_zero_of_not_mem hno] at hone
      cases hone
    rw [run_of_not_opens hstart] at hempty
    exact ⟨hstart, hempty⟩
  · intro h
    obtain ⟨hstart, hempty⟩ := h
    rw [run_of_not_opens hstart]
    refine ⟨?_, hempty⟩
    intro handle hle hlt
    exact absurd hlt (Nat.not_lt.mpr hle)

/-- A directory without subdirectories: its handle is opened and never
closed. -/
theorem flat_directory_unbalanced :
    ¬ Balanced ⟨true, bytes "www", [.other (bytes "index.html")],
      fun _ => false, bytes "index.html"⟩ .start := by
  intro h
  have hcount : (0 : Nat) = 1 := h.1 0 (Nat.le_refl _) Nat.one_pos
  cases hcount

end TrashyServer.Dir
