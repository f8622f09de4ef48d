/-
What a search finds, which directories it opens, and when it comes back.

A search is over a tree as a file system has it (`proper`): the entries
named `.` and `..` are directories, and the names of the others are not
empty and hold no slash. Of such a tree `files` are the names of all
entries that are no directories, at any depth, and `directories` the
names that lead to each directory, in the order a listing meets them,
the start itself (no names) first.

# The mutual fact

Where every directory can be opened, listing returns (`readEntry_leaves`):
the global flag afterwards is the flag before or a file that matches;
`opendir` was called with the path of each directory below, in order; and
what was pushed is the handle being read, once for each of its own
subdirectories, and handles opened on the way, each of them once just
when no directory further down has two subdirectories (`Pushes`). It goes
by the entry and the list of entries, and nothing in it depends on what
the globals were before.

So listing is as exact as a search is meant to be. But `release_dir` then
closes what was pushed, and a handle that is on the stack twice ends the
process before the result is returned (`search_exact_iff`).
-/
import TrashyServer.Dir.Proofs.Handles

namespace TrashyServer.Dir

open Config (dot slash)

-- ================================================================ the tree

mutual

/-- The names of the entries that are no directories. -/
def Entry.files : Entry → List Str
  | .other dName => [dName]
  | .directory dName entries => if isDots dName then [] else files entries

/-- The same for a list of entries. -/
def files : List Entry → List Str
  | [] => []
  | entry :: entries => entry.files ++ files entries

end

mutual

/-- The names that lead to the directories, from here on. -/
def Entry.directories : Entry → List (List Str)
  | .other _ => []
  | .directory dName entries =>
      if isDots dName then []
      else [dName] :: (directoriesBelow entries).map (dName :: ·)

/-- The same for a list of entries. -/
def directoriesBelow : List Entry → List (List Str)
  | [] => []
  | entry :: entries => entry.directories ++ directoriesBelow entries

end

/-- All directories of a tree. -/
def directories (entries : List Entry) : List (List Str) :=
  [] :: directoriesBelow entries

mutual

/-- As a file system has it. -/
def Entry.proper : Entry → Bool
  | .other dName => !isDots dName
  | .directory dName entries =>
      isDots dName
        || (!dName.isEmpty && !dName.contains slash && proper entries)

/-- The same for a list of entries. -/
def proper : List Entry → Bool
  | [] => true
  | entry :: entries => entry.proper && proper entries

end

/-- The start and the names joined by single slashes. -/
def pathOf (start : Str) (names : List Str) : Str :=
  if names = [] then start
  else currentDir start ++ List.intercalate (bytes "/") names

/-- `t` is `s` without its last `.` and what is behind it. -/
def WithoutExtension (s t : Str) : Prop :=
  (∃ b, s = t ++ dot :: b ∧ dot ∉ b) ∨ (dot ∉ s ∧ t = s)

/-- An entry that is gone down to. -/
def Entry.isBelow : Entry → Bool
  | .other _ => false
  | .directory dName _ => !isDots dName

mutual

/-- No directory from here on has two subdirectories. -/
def Entry.narrow : Entry → Bool
  | .other _ => true
  | .directory dName entries =>
      isDots dName
        || (decide (entries.countP Entry.isBelow ≤ 1) && narrowBelow entries)

/-- No directory below has two subdirectories. -/
def narrowBelow : List Entry → Bool
  | [] => true
  | entry :: entries => entry.narrow && narrowBelow entries

end

/-- No directory of a tree has two subdirectories. -/
def narrow (entries : List Entry) : Bool :=
  decide (entries.countP Entry.isBelow ≤ 1) && narrowBelow entries

-- ============================================================== what is pushed

/-- What reading a directory, open as `dp`, puts on the stack: `dp` itself
`wide` times, and handles opened meanwhile, each of them once exactly if
`once`. -/
structure Pushes (dp wide : Nat) (once : Bool) (s s' : Utils)
    (pushed : List Nat) : Prop where
  storageRoot : s'.storageRoot = pushed ++ s.storageRoot
  opened : s.opened ≤ s'.opened
  wide : pushed.count dp = wide
  others : ∀ h ∈ pushed, h ≠ dp → s.opened ≤ h ∧ h < s'.opened
  once : (∀ h, h ≠ dp → pushed.count h ≤ 1) ↔ once = true

/-- Nothing is pushed. -/
theorem Pushes.nil {dp : Nat} {s s' : Utils}
    (hroot : s'.storageRoot = s.storageRoot) (hopened : s'.opened = s.opened) :
    Pushes dp 0 true s s' [] := by
  refine ⟨hroot, Nat.le_of_eq hopened.symm, rfl, fun _ hmem => ?_, ?_⟩
  · cases hmem
  · exact iff_of_true (fun _ _ => Nat.zero_le _) rfl

/-- One entry and the ones behind it. -/
theorem Pushes.append {dp wide wide' : Nat} {once once' : Bool}
    {s s' s'' : Utils} {pushed pushed' : List Nat}
    (h : Pushes dp wide once s s' pushed)
    (h' : Pushes dp wide' once' s' s'' pushed') :
    Pushes dp (wide + wide') (once && once') s s'' (pushed' ++ pushed) := by
  have hfirst : ∀ h, h ≠ dp → s'.opened ≤ h → pushed.count h = 0 := by
    intro handle hne hle
    rw [List.count_eq_zero]
    intro hmem
    exact absurd (h.others handle hmem hne).2 (Nat.not_lt.mpr hle)
  have hsecond : ∀ h, h ≠ dp → h < s'.opened → pushed'.count h = 0 := by
    intro handle hne hlt
    rw [List.count_eq_zero]
    intro hmem
    exact absurd (h'.others handle hmem hne).1 (Nat.not_le.mpr hlt)
  refine ⟨?_, Nat.le_trans h.opened h'.opened, ?_, ?_, ?_⟩
  · rw [h'.storageRoot, h.storageRoot, List.append_assoc]
  · rw [List.count_append, h.wide, h'.wide, Nat.add_comm]
  · intro handle hmem hne
    have hle := h.opened
    have hle' := h'.opened
    rcases List.mem_append.mp hmem with hmem | hmem
    · have hin := h'.others handle hmem hne
      omega
    · have hin := h.others handle hmem hne
      omega
  · rw [Bool.and_eq_true, ← h.once, ← h'.once]
    constructor
    · intro hall
      constructor
      · intro handle hne
        have hle := hall handle hne
        rw [List.count_append] at hle
        omega
      · intro handle hne
        have hle := hall handle hne
        rw [List.count_append] at hle
        omega
    · intro hall handle hne
      have hle := hall.1 handle hne
      have hle' := hall.2 handle hne
      rw [List.count_append]
      by_cases hlt : handle < s'.opened
      · rw [hsecond handle hne hlt]
        omega
      · rw [hfirst handle hne (Nat.not_lt.mp hlt)]
        omega

/-- A subdirectory: its own handle is the next one, and the one being read
is pushed before. -/
theorem Pushes.below {dp wide : Nat} {once : Bool} {s s' : Utils}
    {path : Str} {pushed : List Nat} (hdp : dp < s.opened)
    (h : Pushes s.opened wide once ((s.push dp).ask path).issue s' pushed) :
    Pushes dp 1 (decide (wide ≤ 1) && once) s s' (pushed ++ [dp]) := by
  have hopened : s.opened + 1 ≤ s'.opened := h.opened
  have hothers : ∀ handle ∈ pushed, handle ≠ s.opened →
      s.opened + 1 ≤ handle ∧ handle < s'.opened := h.others
  have hnew : pushed.count dp = 0 := by
    rw [List.count_eq_zero]
    intro hmem
    have hin := hothers dp hmem (Nat.ne_of_lt hdp)
    omega
  have hcount : ∀ handle, handle ≠ dp →
      (pushed ++ [dp]).count handle = pushed.count handle := by
    intro handle hne
    rw [List.count_append, List.count_singleton, if_neg, Nat.add_zero]
    simpa using fun heq : dp = handle => hne heq.symm
  refine ⟨?_, Nat.le_trans (Nat.le_succ _) hopened, ?_, ?_, ?_⟩
  · rw [h.storageRoot, List.append_assoc]
    rfl
  · rw [List.count_append, hnew, List.count_singleton_self]
  · intro handle hmem hne
    rcases List.mem_append.mp hmem with hmem | hmem
    · by_cases hown : handle = s.opened
      · omega
      · have hin := hothers handle hmem hown
        omega
    · exact absurd (List.mem_singleton.mp hmem) hne
  · rw [Bool.and_eq_true, decide_eq_true_iff, ← h.once, ← h.wide]
    constructor
    · intro hall
      constructor
      · have hown := hall s.opened (Nat.ne_of_gt hdp)
        rwa [hcount _ (Nat.ne_of_gt hdp)] at hown
      · intro handle _
        by_cases hne : handle = dp
        · rw [hne, hnew]
          exact Nat.zero_le _
        · rw [← hcount handle hne]
          exact hall handle hne
    · intro hall handle hne
      rw [hcount handle hne]
      by_cases hown : handle = s.opened
      · rw [hown]
        exact hall.1
      · exact hall.2 handle hown

-- =========================================================== what is left behind

/-- What reading leaves of the globals and in the ledger. -/
structure Leaves (dp wide : Nat) (once hit : Bool) (paths : List Str)
    (s s' : Utils) : Prop where
  fileFound : s'.fileFound = (s.fileFound || hit)
  asked : s'.asked = s.asked ++ paths
  pushes : ∃ pushed, Pushes dp wide once s s' pushed

/-- One entry and the ones behind it. -/
theorem Leaves.append {dp wide wide' : Nat} {once once' hit hit' : Bool}
    {paths paths' : List Str} {s s' s'' : Utils}
    (h : Leaves dp wide once hit paths s s')
    (h' : Leaves dp wide' once' hit' paths' s' s'') :
    Leaves dp (wide + wide') (once && once') (hit || hit') (paths ++ paths')
      s s'' := by
  obtain ⟨pushed, hp⟩ := h.pushes
  obtain ⟨pushed', hp'⟩ := h'.pushes
  refine ⟨?_, ?_, _, hp.append hp'⟩
  · rw [h'.fileFound, h.fileFound, Bool.or_assoc]
  · rw [h'.asked, h.asked, List.append_assoc]

/-- A subdirectory. -/
theorem Leaves.below {dp wide : Nat} {once hit : Bool} {paths : List Str}
    {s s' : Utils} {path : Str} (hdp : dp < s.opened)
    (h : Leaves s.opened wide once hit paths
      ((s.push dp).ask path).issue s') :
    Leaves dp 1 (decide (wide ≤ 1) && once) hit (path :: paths) s s' := by
  obtain ⟨pushed, hp⟩ := h.pushes
  refine ⟨h.fileFound, ?_, _, hp.below hdp⟩
  rw [h.asked]
  show s.asked ++ [path] ++ paths = _
  rw [List.append_assoc, List.singleton_append]


-- ================================================================== a name

/-- The last dot is the one without another behind it. -/
theorem stem_append {b : Str} (h : dot ∉ b) (a : Str) :
    stem (a ++ dot :: b) = a := by
  have hfind : (a ++ dot :: b).reverse.findIdx? (· = dot) = some b.length := by
    have hb : b.reverse.findIdx? (· = dot) = none := by
      rw [List.findIdx?_eq_none_iff]
      intro x hx
      have hxb : x ∈ b := List.mem_reverse.mp hx
      simpa using fun hxd : x = dot => h (hxd ▸ hxb)
    rw [List.reverse_append, List.reverse_cons, List.append_assoc,
      List.findIdx?_append, hb, List.singleton_append, List.findIdx?_cons]
    simp
  have hpos : (a ++ dot :: b).length - 1 - b.length = a.length := by
    rw [List.length_append, List.length_cons]
    omega
  unfold stem rfindChar
  rw [hfind]
  show (a ++ dot :: b).take ((a ++ dot :: b).length - 1 - b.length) = a
  rw [hpos]
  simp

/-- A name without a dot is kept whole. -/
theorem stem_of_notMem {s : Str} (h : dot ∉ s) : stem s = s := by
  have hfind : s.reverse.findIdx? (· = dot) = none := by
    rw [List.findIdx?_eq_none_iff]
    intro x hx
    have hxs : x ∈ s := List.mem_reverse.mp hx
    simpa using fun hxd : x = dot => h (hxd ▸ hxs)
  unfold stem rfindChar
  rw [hfind]
  rfl

theorem withoutExtension_iff {s t : Str} :
    WithoutExtension s t ↔ stem s = t := by
  constructor
  · rintro (⟨b, rfl, hb⟩ | ⟨hs, rfl⟩)
    · exact stem_append hb t
    · exact stem_of_notMem hs
  · rintro rfl
    by_cases hs : dot ∈ s
    · obtain ⟨a, b, hab, hb⟩ := List.eq_append_cons_of_mem
        (List.mem_reverse.mpr hs)
      have hsplit : s = b.reverse ++ dot :: a.reverse := by
        rw [← List.reverse_reverse s, hab]
        simp
      have ha : dot ∉ a.reverse := fun h => hb (List.mem_reverse.mp h)
      left
      refine ⟨a.reverse, ?_, ha⟩
      rw [hsplit, stem_append ha]
    · rw [stem_of_notMem hs]
      exact Or.inr ⟨hs, rfl⟩

-- ================================================================== a path

/-- Names behind a slash. -/
def joined (names : List Str) : Str := List.intercalate (bytes "/") names

theorem joined_cons (a b : Str) (l : List Str) :
    joined (a :: b :: l) = a ++ (bytes "/" ++ joined (b :: l)) := by
  unfold joined
  rw [List.intercalate_cons_cons, List.append_assoc]

/-- Below a proper name goes one slash. -/
theorem currentDir_append {dName : Str} (hne : dName ≠ [])
    (hslash : slash ∉ dName) (dir : Str) :
    currentDir (dir ++ dName) = dir ++ dName ++ bytes "/" := by
  have hlast : (dir ++ dName).getLast? ≠ some slash := by
    rw [List.getLast?_append_of_ne_nil _ hne]
    exact fun h => hslash (List.mem_of_getLast? h)
  unfold currentDir
  rw [if_pos hlast]

/-- The path of a directory further down. -/
theorem currentDir_joined {dName : Str} (hne : dName ≠ [])
    (hslash : slash ∉ dName) (dir : Str) {lead : List Str} (h : lead ≠ []) :
    currentDir (dir ++ dName) ++ joined lead = dir ++ joined (dName :: lead) := by
  cases lead with
  | nil => exact absurd rfl h
  | cons a l =>
      rw [currentDir_append hne hslash, joined_cons]
      simp only [List.append_assoc]

theorem ne_nil_of_mem_directoriesBelow {entries : List Entry} :
    ∀ lead ∈ directoriesBelow entries, lead ≠ [] := by
  induction entries with
  | nil =>
      intro lead h
      rw [directoriesBelow] at h
      cases h
  | cons entry entries ih =>
      intro lead h
      rw [directoriesBelow] at h
      rcases List.mem_append.mp h with h | h
      · cases entry with
        | other dName =>
            rw [Entry.directories] at h
            cases h
        | directory dName below =>
            rw [Entry.directories] at h
            split at h
            · cases h
            · rcases List.mem_cons.mp h with rfl | h
              · exact List.cons_ne_nil _ _
              · obtain ⟨l, -, rfl⟩ := List.mem_map.mp h
                exact List.cons_ne_nil _ _
      · exact ih lead h

/-- A directory that is not passed over has a name of its own. -/
theorem name_of_proper {dName : Str} {entries : List Entry}
    (h : (Entry.directory dName entries).proper = true)
    (hdots : isDots dName = false) :
    dName ≠ [] ∧ slash ∉ dName ∧ proper entries = true := by
  rw [Entry.proper, hdots] at h
  simp at h
  exact ⟨h.1.1, h.1.2, h.2⟩

-- ============================================================== the listing

/-- The directories below an entry that is a directory are those of its
own path. -/
theorem directories_below {dName : Str} {entries : List Entry}
    (hproper : (Entry.directory dName entries).proper = true)
    (hdots : isDots dName = false) (dir : Str) :
    (Entry.directory dName entries).directories.map (dir ++ joined ·)
      = (dir ++ dName) :: (directoriesBelow entries).map
          (currentDir (dir ++ dName) ++ joined ·) := by
  obtain ⟨hne, hslash, -⟩ := name_of_proper hproper hdots
  have hone : joined [dName] = dName := List.intercalate_singleton
  rw [Entry.directories, hdots]
  show (dir ++ joined [dName]) :: _ = _
  rw [hone, List.map_map]
  congr 1
  apply List.map_congr_left
  intro lead hlead
  exact (currentDir_joined hne hslash dir
    (ne_nil_of_mem_directoriesBelow lead hlead)).symm

section

variable (fails : Str → Bool) (checkAll : Bool) (target : Str)

mutual

/-- One entry. -/
theorem readEntry_leaves (entry : Entry) {dp : Nat} (dir : Str) {s : Utils}
    (hdp : dp < s.opened) (hproper : entry.proper = true)
    (hopen : ∀ path ∈ entry.directories.map (dir ++ joined ·),
      opens fails path = true) :
    ∃ s', readEntry fails checkAll target dp dir entry s = (.returned, s')
      ∧ Leaves dp (if entry.isBelow then 1 else 0) entry.narrow
        (entry.files.any (found checkAll target))
        (entry.directories.map (dir ++ joined ·)) s s' := by
  cases entry with
  | other dName =>
      rw [Entry.proper] at hproper
      have hdots : isDots dName = false := by simpa using hproper
      rw [readEntry, hdots, Entry.files, Entry.directories, Entry.narrow,
        Entry.isBelow]
      cases hfound : found checkAll target dName with
      | true => exact ⟨_, rfl, by simp [hfound], by simp, _, .nil rfl rfl⟩
      | false => exact ⟨_, rfl, by simp [hfound], by simp, _, .nil rfl rfl⟩
  | directory dName entries =>
      cases hdots : isDots dName with
      | true =>
          rw [readEntry, Entry.files, Entry.directories, Entry.narrow,
            Entry.isBelow, hdots]
          exact ⟨s, rfl, by simp, by simp, _, .nil rfl rfl⟩
      | false =>
          obtain ⟨-, -, hbelow⟩ := name_of_proper hproper hdots
          rw [directories_below hproper hdots] at hopen ⊢
          have hthis := hopen _ (List.mem_cons_self ..)
          obtain ⟨s', hrun, hleaves⟩ := readEntries_leaves entries
            (currentDir (dir ++ dName))
            (s := ((s.push dp).ask (dir ++ dName)).issue)
            (Nat.lt_succ_self s.opened) hbelow
            fun path hpath => hopen path (List.mem_cons_of_mem _ hpath)
          rw [readEntry, Entry.files, Entry.narrow, Entry.isBelow, hdots]
          unfold opendir
          rw [hthis]
          exact ⟨s', hrun, hleaves.below hdp⟩

/-- The entries in turn. -/
theorem readEntries_leaves (entries : List Entry) {dp : Nat} (dir : Str)
    {s : Utils} (hdp : dp < s.opened) (hproper : proper entries = true)
    (hopen : ∀ path ∈ (directoriesBelow entries).map (dir ++ joined ·),
      opens fails path = true) :
    ∃ s', readEntries fails checkAll target dp dir entries s = (.returned, s')
      ∧ Leaves dp (entries.countP Entry.isBelow) (narrowBelow entries)
        ((files entries).any (found checkAll target))
        ((directoriesBelow entries).map (dir ++ joined ·)) s s' := by
  cases entries with
  | nil =>
      rw [readEntries, files, directoriesBelow, narrowBelow]
      exact ⟨s, rfl, by simp, by simp, _, .nil rfl rfl⟩
  | cons entry entries =>
      rw [proper, Bool.and_eq_true] at hproper
      rw [directoriesBelow, List.map_append] at hopen ⊢
      obtain ⟨s', hentry, hleaves⟩ := readEntry_leaves entry dir hdp hproper.1
        fun path hpath => hopen path (List.mem_append_left _ hpath)
      have hle : s.opened ≤ s'.opened := hleaves.pushes.elim fun _ h => h.opened
      obtain ⟨s'', hrest, hleaves'⟩ := readEntries_leaves entries dir
        (Nat.lt_of_lt_of_le hdp hle) hproper.2
        fun path hpath => hopen path (List.mem_append_right _ hpath)
      rw [readEntries, files, narrowBelow, hentry, List.any_append,
        List.countP_cons, Nat.add_comm]
      exact ⟨s'', hrest, hleaves.append hleaves'⟩

end

end

-- ============================================================== the searches

theorem map_pathOf (start : Str) (entries : List Entry) :
    (directories entries).map (pathOf start)
      = start :: (directoriesBelow entries).map
          (currentDir start ++ joined ·) := by
  unfold directories
  rw [List.map_cons]
  congr 1
  apply List.map_congr_left
  intro lead hlead
  exact if_neg (ne_nil_of_mem_directoriesBelow lead hlead)

/-- What matches, said of the names. -/
theorem found_iff {checkAll : Bool} {target name : Str} :
    found checkAll target name = true
      ↔ if checkAll then name = target
        else ∃ t, WithoutExtension name t ∧ WithoutExtension target t := by
  cases checkAll with
  | true => simp [found]
  | false =>
      show decide (stem name = stem target) = true ↔ _
      rw [decide_eq_true_iff]
      constructor
      · intro h
        exact ⟨stem name, withoutExtension_iff.mpr rfl,
          withoutExtension_iff.mpr h.symm⟩
      · rintro ⟨t, hname, htarget⟩
        rw [withoutExtension_iff.mp hname, withoutExtension_iff.mp htarget]

/-- A stack of what was pushed and what was there before has no handle
twice exactly when neither part has. -/
theorem nodup_pushes {dp wide : Nat} {once : Bool} {s s' : Utils}
    {pushed : List Nat} (h : Pushes dp wide once s s' pushed)
    (hs : ∀ handle ∈ s.storageRoot, handle < dp) (hdp : dp < s.opened) :
    s'.storageRoot.Nodup
      ↔ (decide (wide ≤ 1) && once) = true ∧ s.storageRoot.Nodup := by
  have hnodup : pushed.Nodup ↔ (decide (wide ≤ 1) && once) = true := by
    rw [Bool.and_eq_true, decide_eq_true_iff, ← h.once, ← h.wide,
      List.nodup_iff_count]
    constructor
    · intro hall
      exact ⟨hall dp, fun handle _ => hall handle⟩
    · intro hall handle
      by_cases hown : handle = dp
      · rw [hown]
        exact hall.1
      · exact hall.2 handle hown
  rw [h.storageRoot, List.nodup_append, hnodup]
  constructor
  · intro hall
    exact ⟨hall.1, hall.2.1⟩
  · intro hall
    refine ⟨hall.1, hall.2, ?_⟩
    intro a ha b hb heq
    have hlt := hs b hb
    by_cases hown : a = dp
    · omega
    · have hin := (h.others a ha hown).1
      omega

/-- What a search is for. It returns; its result is true exactly when an
entry at some depth that is no directory has the name looked for
(`search_file`), or has it up to the last dot in both
(`search_file_ignore_extension`); and it opens each directory of the tree
once, by the start and the names that lead to it, joined by single
slashes. Only the ledger's beginning depends on the searches before. -/
def Exact (history : List Call) (c : Call) : Prop :=
  ∃ s', c.run (runs history .start) = (.returned, s')
    ∧ (s'.fileFound = true
      ↔ ∃ name ∈ files c.entries, if c.checkAll then name = c.target
        else ∃ t, WithoutExtension name t ∧ WithoutExtension c.target t)
    ∧ s'.asked = (runs history .start).asked
      ++ (directories c.entries).map (pathOf c.dir)

/-- A tree in which every directory can be opened is listed to its end. -/
theorem listThem_leaves {c : Call} (hproper : proper c.entries = true)
    (hopen : ∀ path ∈ (directories c.entries).map (pathOf c.dir),
      opens c.fails path = true) (s : Utils) :
    ∃ s', listThem c.fails c.checkAll c.target c.dir c.entries s
        = (.returned, s')
      ∧ Leaves s.opened (c.entries.countP Entry.isBelow)
        (narrowBelow c.entries)
        ((files c.entries).any (found c.checkAll c.target))
        ((directoriesBelow c.entries).map (currentDir c.dir ++ joined ·))
        (s.ask c.dir).issue s' := by
  rw [map_pathOf] at hopen
  have hstart := hopen _ (List.mem_cons_self ..)
  unfold listThem opendir
  rw [if_pos hstart]
  exact readEntries_leaves c.fails c.checkAll c.target c.entries
    (currentDir c.dir) (Nat.lt_succ_self s.opened) hproper
    fun path hpath => hopen path (List.mem_cons_of_mem _ hpath)

/-- For every tree as a file system has it, in which every directory can be
opened, and after any searches before, those that ended with an exception
included: the search is exact if and only if no directory of the tree has
two subdirectories, and what earlier searches left on the stack holds no
handle twice and none that is closed. -/
theorem search_exact_iff (history : List Call) {c : Call}
    (hproper : proper c.entries = true)
    (hopen : ∀ path ∈ (directories c.entries).map (pathOf c.dir),
      opens c.fails path = true) :
    Exact history c
      ↔ narrow c.entries = true
        ∧ (runs history .start).storageRoot.Nodup
        ∧ ∀ h ∈ (runs history .start).storageRoot,
          h ∉ (runs history .start).closed := by
  have hs := issued_runs history issued_start
  unfold Exact
  generalize runs history .start = s at hs ⊢
  obtain ⟨s', hlist, hleaves⟩ := listThem_leaves hproper hopen
    { s with fileFound := false }
  obtain ⟨pushed, hpushes⟩ := hleaves.pushes
  have hclosed : s'.closed = s.closed := by
    have hstart : opens c.fails c.dir = true := by
      rw [map_pathOf] at hopen
      exact hopen _ (List.mem_cons_self ..)
    obtain ⟨x, s'', hlist', hlisted⟩ := listed_of_opens hstart
      { s with fileFound := false }
    rw [hlist] at hlist'
    injection hlist' with _ heq
    rw [heq]
    exact hlisted.closed
  have hrun : c.run s = releaseDir s' := by
    unfold Call.run
    rw [hlist]
  have hback : (c.run s).1 = .returned ↔ narrow c.entries = true
      ∧ s.storageRoot.Nodup ∧ ∀ h ∈ s.storageRoot, h ∉ s.closed := by
    rw [hrun]
    unfold releaseDir
    rw [release_iff, nodup_pushes hpushes hs.pushed (Nat.lt_succ_self _),
      hclosed, hpushes.storageRoot, and_assoc]
    refine and_congr_right fun _ => and_congr_right fun _ => ?_
    rw [List.forall_mem_append]
    refine and_iff_right ?_
    intro h hmem hin
    have hlt := hs.closed h hin
    by_cases hown : h = s.opened
    · omega
    · have hge : s.opened + 1 ≤ h := (hpushes.others h hmem hown).1
      omega
  rw [← hback]
  constructor
  · intro h
    obtain ⟨s'', hreturned, -⟩ := h
    rw [hreturned]
  · intro h
    have hrel := released_run hlist
    refine ⟨(c.run s).2, Prod.ext h rfl, ?_, ?_⟩
    · have hflag : (c.run s).2.fileFound
          = (files c.entries).any (found c.checkAll c.target) := by
        rw [hrel.fileFound, hleaves.fileFound]
        exact Bool.false_or _
      rw [hflag, List.any_eq_true]
      apply exists_congr
      intro name
      rw [found_iff]
    · rw [hrel.asked, hleaves.asked, map_pathOf]
      show s.asked ++ [c.dir] ++ _ = _
      rw [List.append_assoc, List.singleton_append]

/-- A page two levels down, looked for after a search that threw. -/
theorem search_exact_nested :
    Exact [⟨true, bytes "gone", [], fun _ => true, []⟩]
      ⟨false, bytes "www",
        [.directory (bytes ".") [], .other (bytes "a.b.txt"),
          .directory (bytes "d") [.directory (bytes "e")
            [.other (bytes "index.html")]]],
        fun _ => false, bytes "index.php"⟩ :=
  (search_exact_iff _ (by decide) (by decide)).mpr
    ⟨by decide, by decide, by decide⟩

/-- Two directories side by side: the search does not come back. -/
theorem search_two_directories :
    ¬ Exact [] ⟨true, bytes "www",
      [.directory (bytes "d") [], .directory (bytes "e") []],
      fun _ => false, bytes "x"⟩ := by
  intro h
  obtain ⟨s', hrun, -⟩ := h
  have haborted : (Call.run ⟨true, bytes "www",
      [.directory (bytes "d") [], .directory (bytes "e") []],
      fun _ => false, bytes "x"⟩ (runs [] .start)).1 = .aborted := by decide
  rw [hrun] at haborted
  cases haborted

end TrashyServer.Dir
