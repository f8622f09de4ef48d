/-
What one pass of `parse_setting` computes.

# check_dir

`check_dir` walks over a path once and drops the first of every two
slashes it meets (`squeeze`, `checkDir_eq`); its second half never
changes anything. An empty path it indexes out of bounds.

# A pass

Each pair acts by the kind of its key (`kindOf`) and touches one member
(`settle`). The one thing a pair needs is a path to work on: a value or
a root (`Bare`, `parseSettingStep_eq`). So a pass fails where a bare
pair meets an empty root (`Uncovered`, `parseSetting_of_uncovered`), and
else leaves as root that of the last location (`rootAfter`) and as either
path what its own last pair made of the root it met
(`path_foldl_last`).
-/
import TrashyServer.Config.Model
import TrashyServer.Tool.Proofs.Construct

namespace TrashyServer.Config

open Tool (searchText)

-- ============================================================== check_dir

/-- A path without the first of every two slashes. -/
def squeeze : Str → Str
  | [] => []
  | [b] => [b]
  | b :: c :: s =>
      if b = slash ∧ c = slash then slash :: squeeze s
      else b :: squeeze (c :: s)

theorem getD_append_length (l : Str) (r : Str) (k : Nat) :
    (l ++ r).getD (l.length + k) nul = r.getD k nul := by
  rw [List.getD_eq_getElem?_getD, List.getD_eq_getElem?_getD,
    List.getElem?_append_right (Nat.le_add_right ..), Nat.add_sub_cancel_left]

/-- The first loop, from behind the part it is through with. -/
theorem checkDirLoop_eq {n : Nat} :
    ∀ {l r : Str}, r.length ≤ n →
      checkDirLoop n l.length (l ++ r) = .ok (l ++ squeeze r) := by
  induction n with
  | zero =>
      intro l r hr
      rw [List.length_eq_zero_iff.mp (Nat.le_zero.mp hr)]
      rfl
  | succ n ih =>
      intro l r hr
      unfold checkDirLoop
      cases r with
      | nil =>
          have hnil : squeeze [] = [] := rfl
          rw [hnil, List.append_nil, if_neg (Nat.lt_irrefl _)]
      | cons b r =>
          have hin : l.length < (l ++ b :: r).length := by simp
          have hb : (l ++ b :: r).getD l.length nul = b :=
            getD_append_length l (b :: r) 0
          have hc : (l ++ b :: r).getD (l.length + 1) nul = r.getD 0 nul :=
            getD_append_length l (b :: r) 1
          have hlen : r.length ≤ n := by
            rw [List.length_cons] at hr
            omega
          have hnext : ∀ x : UInt8, (l ++ [x]).length = l.length + 1 := by simp
          rw [if_pos hin, hb, hc]
          cases r with
          | nil =>
              have hno : ¬ (b = slash ∧ ([] : Str).getD 0 nul = slash) :=
                fun h => absurd h.2 (by decide)
              have hstep := ih (l := l ++ [b]) hlen
              rw [hnext, List.append_nil] at hstep
              rw [if_neg hno, hstep]
              have hnil : squeeze [] = [] := rfl
              rw [hnil, List.append_nil]
              rfl
          | cons c s =>
              show (if b = slash ∧ c = slash then _ else _) = _
              unfold squeeze
              by_cases hslash : b = slash ∧ c = slash
              · -- the slash at the index goes, and the next one is passed over
                have hl : substr (l ++ b :: c :: s) 0 l.length = .ok l := by
                  rw [substr_of_le (Nat.zero_le _), List.drop_zero,
                    List.take_left]
                have hr' : substr (l ++ b :: c :: s) (l.length + 1)
                    (l ++ b :: c :: s).length = .ok (c :: s) := by
                  have hle : l.length + 1 ≤ (l ++ b :: c :: s).length := hin
                  rw [substr_of_le hle, List.drop_length_add_append]
                  show Except.ok ((c :: s).take _) = _
                  rw [List.take_of_length_le (by simp; omega)]
                have hstep := ih (l := l ++ [c]) (r := s) (by
                  rw [List.length_cons] at hlen
                  omega)
                rw [hnext, List.append_assoc, List.append_assoc] at hstep
                rw [if_pos hslash, if_pos hslash, hl, ok_bind, hr', ok_bind,
                  ← hslash.2]
                exact hstep
              · have hstep := ih (l := l ++ [b]) hlen
                rw [hnext, List.append_assoc, List.append_assoc] at hstep
                rw [if_neg hslash, if_neg hslash]
                exact hstep

theorem squeeze_ne_nil {s : Str} (h : s ≠ []) : squeeze s ≠ [] := by
  unfold squeeze
  split
  · exact h
  · exact List.cons_ne_nil _ _
  · split <;> exact List.cons_ne_nil _ _

/-- The first byte stays. -/
theorem head?_squeeze (s : Str) : (squeeze s).head? = s.head? := by
  unfold squeeze
  split
  · rfl
  · rfl
  · split
    · next hslash =>
      rw [hslash.1]
      rfl
    · rfl

/-- `check_dir` on a path that is not empty. -/
theorem checkDir_eq {s : Str} (h : s ≠ []) : checkDir s = .ok (squeeze s) := by
  have hloop : checkDirLoop s.length 0 s = .ok (squeeze s) :=
    checkDirLoop_eq (l := []) (Nat.le_refl _)
  have hne := squeeze_ne_nil h
  unfold checkDir
  rw [hloop, ok_bind]
  unfold lastChar
  rw [List.getLast?_eq_some_getLast hne]
  dsimp only
  rw [ok_bind]
  split
  · next hlast =>
    -- the index stands on the last slash already
    have hpos := List.length_pos_iff.mpr hne
    have hat : (squeeze s).getD ((squeeze s).length - 1) nul = slash := by
      rw [List.getD_eq_getElem?_getD, List.getElem?_eq_getElem (by omega),
        Option.getD_some, ← List.getLast_eq_getElem hne]
      exact hlast
    have hback : backToSlash (squeeze s) ((squeeze s).length - 1)
        = (squeeze s).length - 1 := by
      cases hk : (squeeze s).length - 1 with
      | zero => rfl
      | succ k =>
          rw [hk] at hat
          unfold backToSlash
          rw [if_neg (fun hno => hno hat)]
    rw [hback, Nat.sub_add_cancel hpos, substr_of_le (Nat.zero_le _),
      List.drop_zero, List.take_length]
  · rfl

/-- An empty path has no last character. -/
theorem checkDir_nil : checkDir [] = .error .vectorRange := rfl

-- =================================================================== a pair

/-- The two settings that are paths. -/
inductive PathKey
  | htmlPages
  | staticPath
deriving DecidableEq

/-- What a pair sets. -/
inductive Kind
  | listenPort
  | location
  | path (k : PathKey)
deriving DecidableEq

/-- What a key is taken for: the names are looked for in it in this
order. -/
def kindOf (key : Str) : Option Kind :=
  if searchText key "listen_port" then some .listenPort
  else if searchText key "location" then some .location
  else if searchText key "html_pages" then some (.path .htmlPages)
  else if searchText key "static_path" then some (.path .staticPath)
  else none

/-- A path with a slash at its end. -/
def closed (p : Str) : Str :=
  if p.getLast? = some slash then p else p ++ bytes "/"

/-- The root a location sets. -/
def rootOf (value : Str) : Str :=
  if value = [] then bytes "./" else closed (squeeze value)

/-- The member a path is kept in. -/
def ConfigFileParse.path (c : ConfigFileParse) : PathKey → Str
  | .htmlPages => c.pagesPath
  | .staticPath => c.staticPath

/-- The member set. -/
def ConfigFileParse.setPath (c : ConfigFileParse) (k : PathKey) (p : Str) :
    ConfigFileParse :=
  match k with
  | .htmlPages => { c with pagesPath := p }
  | .staticPath => { c with staticPath := p }

/-- What a pair does to the object. -/
def settle (c : ConfigFileParse) (index : Str × Str) : ConfigFileParse :=
  match kindOf index.1 with
  | some .listenPort => { c with configFileListenPort := atoi index.2 }
  | some .location => { c with rootDir := rootOf index.2 }
  | some (.path k) => c.setPath k (squeeze (c.rootDir ++ index.2))
  | none => c

/-- A pair that sets a path and has nothing to make it of. -/
def Bare (root : Str) (index : Str × Str) : Prop :=
  (∃ k, kindOf index.1 = some (.path k)) ∧ root = [] ∧ index.2 = []

@[simp]
theorem path_setPath (c : ConfigFileParse) (k : PathKey) (p : Str) :
    (c.setPath k p).path k = p := by
  cases k <;> rfl

theorem path_setPath_of_ne (c : ConfigFileParse) {k k' : PathKey} (h : k' ≠ k)
    (p : Str) : (c.setPath k p).path k' = c.path k' := by
  cases k <;> cases k' <;> first | rfl | exact absurd rfl h

@[simp]
theorem rootDir_setPath (c : ConfigFileParse) (k : PathKey) (p : Str) :
    (c.setPath k p).rootDir = c.rootDir := by
  cases k <;> rfl

@[simp]
theorem pathKVData_setPath (c : ConfigFileParse) (k : PathKey) (p : Str) :
    (c.setPath k p).pathKVData = c.pathKVData := by
  cases k <;> rfl

/-- A slash is put behind a path that has a last character. -/
theorem lastChar_closed {α : Type} {p : Str} (h : p ≠ []) (f : Str → α) :
    (do
      let last ← lastChar p
      .ok (f (if last ≠ slash then p ++ bytes "/" else p)) : Except Fault α)
      = .ok (f (closed p)) := by
  unfold lastChar closed
  rw [List.getLast?_eq_some_getLast h]
  dsimp only
  rw [ok_bind]
  by_cases hlast : p.getLast h = slash
  · simp [hlast]
  · simp [hlast]

/-- The root a location sets, as `parse_setting` computes it. -/
theorem location_eq (c : ConfigFileParse) (value : Str) :
    (if value.length = 0 then .ok { c with rootDir := bytes "./" }
      else do
        let second ← checkDir value
        let last ← lastChar second
        let second := if last ≠ slash then second ++ bytes "/" else second
        .ok { c with rootDir := second } : Except Fault ConfigFileParse)
      = .ok { c with rootDir := rootOf value } := by
  unfold rootOf
  by_cases hvalue : value = []
  · have hlen : value.length = 0 := by
      rw [hvalue]
      rfl
    rw [if_pos hlen, if_pos hvalue]
  · have hlen : ¬ value.length = 0 := fun h =>
      hvalue (List.length_eq_zero_iff.mp h)
    rw [if_neg hlen, if_neg hvalue, checkDir_eq hvalue, ok_bind]
    exact lastChar_closed (squeeze_ne_nil hvalue)
      fun root => { c with rootDir := root }

/-- The kinds are the branches of `parse_setting`. -/
theorem parseSettingStep_kind (c : ConfigFileParse) (index : Str × Str) :
    parseSettingStep c index = match kindOf index.1 with
      | some .listenPort => .ok { c with configFileListenPort := atoi index.2 }
      | some .location => .ok { c with rootDir := rootOf index.2 }
      | some (.path k) => do
          let tmp ← checkDir (c.rootDir ++ index.2)
          .ok (c.setPath k tmp)
      | none => .ok c := by
  unfold parseSettingStep kindOf
  by_cases hport : searchText index.1 "listen_port" = true
  · rw [if_pos hport, if_pos hport]
  rw [if_neg hport, if_neg hport]
  by_cases hlocation : searchText index.1 "location" = true
  · rw [if_pos hlocation, if_pos hlocation]
    exact location_eq c index.2
  rw [if_neg hlocation, if_neg hlocation]
  by_cases hpages : searchText index.1 "html_pages" = true
  · rw [if_pos hpages, if_pos hpages]
    rfl
  rw [if_neg hpages, if_neg hpages]
  by_cases hstatic : searchText index.1 "static_path" = true
  · rw [if_pos hstatic, if_pos hstatic]
    rfl
  rw [if_neg hstatic, if_neg hstatic]

/-- A pass fails at a bare pair, -/
theorem parseSettingStep_of_bare {c : ConfigFileParse} {index : Str × Str}
    (h : Bare c.rootDir index) :
    parseSettingStep c index = .error .vectorRange := by
  obtain ⟨⟨k, hkind⟩, hroot, hvalue⟩ := h
  rw [parseSettingStep_kind, hkind]
  dsimp only
  rw [hroot, hvalue, List.append_nil, checkDir_nil, error_bind]

/-- and any other pair does what it stands for. -/
theorem parseSettingStep_eq {c : ConfigFileParse} {index : Str × Str}
    (h : ¬ Bare c.rootDir index) :
    parseSettingStep c index = .ok (settle c index) := by
  rw [parseSettingStep_kind]
  unfold settle
  split
  · rfl
  · rfl
  · next k hkind =>
    have hne : c.rootDir ++ index.2 ≠ [] := fun hnil =>
      h ⟨⟨k, hkind⟩, List.append_eq_nil_iff.mp hnil⟩
    rw [checkDir_eq hne, ok_bind]
  · rfl

-- =================================================================== a pass

/-- The root after some pairs. -/
def rootAfter (root : Str) (kvs : List (Str × Str)) : Str :=
  kvs.foldl (fun root index =>
    if kindOf index.1 = some .location then rootOf index.2 else root) root

/-- A bare pair meets an empty root. -/
def Uncovered (root : Str) (kvs : List (Str × Str)) : Prop :=
  ∃ before index after, kvs = before ++ index :: after
    ∧ Bare (rootAfter root before) index

theorem rootDir_settle (c : ConfigFileParse) (index : Str × Str) :
    (settle c index).rootDir
      = if kindOf index.1 = some .location then rootOf index.2
        else c.rootDir := by
  unfold settle
  split
  · next hkind => simp [hkind]
  · next hkind => simp [hkind]
  · next k hkind => simp [hkind]
  · next hkind => simp [hkind]

theorem pathKVData_settle (c : ConfigFileParse) (index : Str × Str) :
    (settle c index).pathKVData = c.pathKVData := by
  unfold settle
  split
  · rfl
  · rfl
  · exact pathKVData_setPath ..
  · rfl

theorem path_settle (c : ConfigFileParse) (index : Str × Str) (k : PathKey) :
    (settle c index).path k
      = if kindOf index.1 = some (.path k) then squeeze (c.rootDir ++ index.2)
        else c.path k := by
  unfold settle
  split
  · next hkind =>
    rw [hkind]
    cases k <;> rfl
  · next hkind =>
    rw [hkind]
    cases k <;> rfl
  · next k' hkind =>
    rw [hkind]
    by_cases hk : k' = k
    · subst hk
      simp
    · have hne : ¬ (some (Kind.path k') = some (.path k)) := fun h => by
        cases h
        exact hk rfl
      rw [if_neg hne, path_setPath_of_ne c (Ne.symm hk)]
  · next hkind =>
    rw [hkind]
    simp

theorem uncovered_cons {root : Str} {index : Str × Str}
    {kvs : List (Str × Str)} :
    Uncovered root (index :: kvs)
      ↔ Bare root index ∨ Uncovered (rootAfter root [index]) kvs := by
  constructor
  · intro h
    obtain ⟨before, x, after, heq, hbare⟩ := h
    cases before with
    | nil =>
        obtain ⟨rfl, -⟩ := List.cons.inj heq
        exact .inl hbare
    | cons y before =>
        obtain ⟨rfl, rfl⟩ := List.cons.inj heq
        exact .inr ⟨before, x, after, rfl, hbare⟩
  · intro h
    rcases h with hbare | ⟨before, x, after, rfl, hbare⟩
    · exact ⟨[], index, kvs, rfl, hbare⟩
    · exact ⟨index :: before, x, after, rfl, hbare⟩

/-- A pass over pairs of which none is uncovered. -/
theorem foldlM_of_covered {kvs : List (Str × Str)} :
    ∀ {c : ConfigFileParse}, ¬ Uncovered c.rootDir kvs →
      kvs.foldlM parseSettingStep c = .ok (kvs.foldl settle c) := by
  induction kvs with
  | nil =>
      intro c _
      rfl
  | cons index kvs ih =>
      intro c h
      rw [uncovered_cons, not_or] at h
      rw [List.foldlM_cons, parseSettingStep_eq h.1, ok_bind, List.foldl_cons]
      apply ih
      rw [rootDir_settle]
      exact h.2

/-- A pass that meets an uncovered pair. -/
theorem foldlM_of_uncovered {kvs : List (Str × Str)} :
    ∀ {c : ConfigFileParse}, Uncovered c.rootDir kvs →
      kvs.foldlM parseSettingStep c = .error .vectorRange := by
  induction kvs with
  | nil =>
      intro c h
      obtain ⟨before, x, after, heq, -⟩ := h
      cases before <;> cases heq
  | cons index kvs ih =>
      intro c h
      rw [uncovered_cons] at h
      rw [List.foldlM_cons]
      by_cases hbare : Bare c.rootDir index
      · rw [parseSettingStep_of_bare hbare, error_bind]
      · rw [parseSettingStep_eq hbare, ok_bind]
        apply ih
        rw [rootDir_settle]
        exact h.resolve_left hbare

-- ======================================================= what a pass leaves

theorem closed_ne_nil (p : Str) : closed p ≠ [] := by
  unfold closed
  split
  · next h =>
    intro hnil
    rw [hnil] at h
    cases h
  · simp [bytes]

theorem rootOf_ne_nil (value : Str) : rootOf value ≠ [] := by
  unfold rootOf
  split
  · decide
  · exact closed_ne_nil _

theorem rootAfter_append (root : Str) (kvs kvs' : List (Str × Str)) :
    rootAfter root (kvs ++ kvs') = rootAfter (rootAfter root kvs) kvs' :=
  List.foldl_append

/-- Without a location the root stays. -/
theorem rootAfter_of_none {kvs : List (Str × Str)} :
    ∀ {root : Str}, (∀ x ∈ kvs, kindOf x.1 ≠ some .location) →
      rootAfter root kvs = root := by
  induction kvs with
  | nil =>
      intro root _
      rfl
  | cons x kvs ih =>
      intro root h
      rw [List.forall_mem_cons] at h
      have hfirst : rootAfter root (x :: kvs) = rootAfter root kvs := by
        unfold rootAfter
        rw [List.foldl_cons, if_neg h.1]
      rw [hfirst]
      exact ih h.2

/-- With one, it is the last location's. -/
theorem rootAfter_last {before after : List (Str × Str)} {x : Str × Str}
    (hx : kindOf x.1 = some .location)
    (hafter : ∀ y ∈ after, kindOf y.1 ≠ some .location) (root : Str) :
    rootAfter root (before ++ x :: after) = rootOf x.2 := by
  rw [rootAfter_append]
  show rootAfter (if kindOf x.1 = some .location then rootOf x.2 else _) after
    = _
  rw [if_pos hx, rootAfter_of_none hafter]

/-- A list has a last element of a kind, or none. -/
theorem last_or_none {α : Type} (p : α → Prop) (l : List α) :
    (∃ before x after, l = before ++ x :: after ∧ p x ∧ ∀ y ∈ after, ¬ p y)
      ∨ ∀ y ∈ l, ¬ p y := by
  induction l with
  | nil => exact .inr fun y hy => absurd hy List.not_mem_nil
  | cons a l ih =>
      rcases ih with ⟨before, x, after, rfl, hx, hafter⟩ | hnone
      · exact .inl ⟨a :: before, x, after, rfl, hx, hafter⟩
      · by_cases ha : p a
        · exact .inl ⟨[], a, l, rfl, ha, hnone⟩
        · exact .inr (List.forall_mem_cons.mpr ⟨ha, hnone⟩)

/-- The root is empty only as long as no location has set it. -/
theorem rootAfter_eq_nil_iff {root : Str} {kvs : List (Str × Str)} :
    rootAfter root kvs = []
      ↔ root = [] ∧ ∀ x ∈ kvs, kindOf x.1 ≠ some .location := by
  rcases last_or_none (fun x => kindOf x.1 = some .location) kvs with
    ⟨before, x, after, rfl, hx, hafter⟩ | hnone
  · rw [rootAfter_last hx hafter]
    refine iff_of_false (rootOf_ne_nil _) ?_
    intro h
    exact h.2 x (by simp) hx
  · rw [rootAfter_of_none hnone]
    exact (and_iff_left hnone).symm

/-- A root covers at least what an empty one does. -/
theorem uncovered_mono {root root' : Str} {kvs : List (Str × Str)}
    (h : root' = [] → root = []) (hu : Uncovered root' kvs) :
    Uncovered root kvs := by
  obtain ⟨before, x, after, heq, hkind, hroot, hvalue⟩ := hu
  rw [rootAfter_eq_nil_iff] at hroot
  exact ⟨before, x, after, heq, hkind,
    rootAfter_eq_nil_iff.mpr ⟨h hroot.1, hroot.2⟩, hvalue⟩

theorem rootDir_foldl (kvs : List (Str × Str)) (c : ConfigFileParse) :
    (kvs.foldl settle c).rootDir = rootAfter c.rootDir kvs := by
  unfold rootAfter
  exact (List.foldl_hom ConfigFileParse.rootDir
    fun c x => (rootDir_settle c x).symm).symm

theorem pathKVData_foldl (kvs : List (Str × Str)) :
    ∀ c : ConfigFileParse,
      (kvs.foldl settle c).pathKVData = c.pathKVData := by
  induction kvs with
  | nil =>
      intro c
      rfl
  | cons x kvs ih =>
      intro c
      rw [List.foldl_cons, ih, pathKVData_settle]

/-- Without a pair for it a path stays. -/
theorem path_foldl_of_none {k : PathKey} {kvs : List (Str × Str)} :
    ∀ {c : ConfigFileParse}, (∀ x ∈ kvs, kindOf x.1 ≠ some (.path k)) →
      (kvs.foldl settle c).path k = c.path k := by
  induction kvs with
  | nil =>
      intro c _
      rfl
  | cons x kvs ih =>
      intro c h
      rw [List.forall_mem_cons] at h
      rw [List.foldl_cons, ih h.2, path_settle, if_neg h.1]

/-- With one, it is what the last of them makes of the root it meets. -/
theorem path_foldl_last {k : PathKey} {before after : List (Str × Str)}
    {x : Str × Str} (hx : kindOf x.1 = some (.path k))
    (hafter : ∀ y ∈ after, kindOf y.1 ≠ some (.path k))
    (c : ConfigFileParse) :
    ((before ++ x :: after).foldl settle c).path k
      = squeeze (rootAfter c.rootDir before ++ x.2) := by
  rw [List.foldl_append, List.foldl_cons, path_foldl_of_none hafter,
    path_settle, if_pos hx, rootDir_foldl]

-- ============================================================== the getters

/-- `get_pages_path` or `get_static_path`. -/
def ConfigFileParse.getPath (c : ConfigFileParse) :
    PathKey → Except Fault (Str × ConfigFileParse)
  | .htmlPages => c.getPagesPath
  | .staticPath => c.getStaticPath

theorem parseSetting_of_covered {c : ConfigFileParse}
    (h : ¬ Uncovered c.rootDir c.pathKVData) :
    c.parseSetting = .ok (c.pathKVData.foldl settle c) :=
  foldlM_of_covered h

theorem parseSetting_of_uncovered {c : ConfigFileParse}
    (h : Uncovered c.rootDir c.pathKVData) :
    c.parseSetting = .error .vectorRange :=
  foldlM_of_uncovered h

/-- The slash a getter puts behind its path. -/
theorem closePath_eq (c : ConfigFileParse) (k : PathKey) :
    (do
      let last ← lastChar (c.path k)
      let c := if last ≠ slash then c.setPath k (c.path k ++ bytes "/") else c
      .ok (c.path k, c) : Except Fault (Str × ConfigFileParse))
      = if c.path k = [] then .error .vectorRange
        else .ok (closed (c.path k), c.setPath k (closed (c.path k))) := by
  by_cases hnil : c.path k = []
  · rw [if_pos hnil, hnil]
    rfl
  · have hself : c.setPath k (c.path k) = c := by cases k <;> rfl
    rw [if_neg hnil, ← lastChar_closed hnil fun p => (p, c.setPath k p)]
    congr 1
    funext last
    by_cases hlast : last ≠ slash
    · simp [hlast]
    · simp [hlast, hself]

/-- A getter behind its pass. -/
theorem getPath_eq (c : ConfigFileParse) (k : PathKey) :
    c.getPath k = (do
      let c ← c.parseSetting
      if c.path k = [] then .error .vectorRange
      else .ok (closed (c.path k), c.setPath k (closed (c.path k)))) := by
  cases k with
  | htmlPages =>
      show (c.parseSetting >>= _) = _
      congr 1
      funext c'
      exact closePath_eq c' .htmlPages
  | staticPath =>
      show (c.parseSetting >>= _) = _
      congr 1
      funext c'
      exact closePath_eq c' .staticPath

/-- The path a getter returns behind a pass that fails nowhere. -/
theorem getPath_of_covered {c : ConfigFileParse} {k : PathKey}
    (h : ¬ Uncovered c.rootDir c.pathKVData) {before after : List (Str × Str)}
    {x : Str × Str} (hdata : c.pathKVData = before ++ x :: after)
    (hx : kindOf x.1 = some (.path k))
    (hafter : ∀ y ∈ after, kindOf y.1 ≠ some (.path k)) :
    (c.getPath k).map Prod.fst
      = .ok (closed (squeeze (rootAfter c.rootDir before ++ x.2))) := by
  have hpath : (c.pathKVData.foldl settle c).path k
      = squeeze (rootAfter c.rootDir before ++ x.2) := by
    rw [hdata]
    exact path_foldl_last hx hafter c
  have hne : squeeze (rootAfter c.rootDir before ++ x.2) ≠ [] := by
    apply squeeze_ne_nil
    intro hnil
    obtain ⟨hroot, hvalue⟩ := List.append_eq_nil_iff.mp hnil
    exact h ⟨before, x, after, hdata, ⟨k, hx⟩, hroot, hvalue⟩
  rw [getPath_eq, parseSetting_of_covered h, ok_bind, hpath, if_neg hne]
  rfl

theorem covered_of_getPath {c : ConfigFileParse} {k : PathKey} {p : Str}
    (h : (c.getPath k).map Prod.fst = .ok p) :
    ¬ Uncovered c.rootDir c.pathKVData := by
  intro hu
  rw [getPath_eq, parseSetting_of_uncovered hu] at h
  cases h

/-- The path a getter returns, if it returns one. -/
def Getter.path : Getter → Option PathKey
  | .getStaticPath => some .staticPath
  | .getPagesPath => some .htmlPages
  | .getListenPort => none

/-- The object after a pass over its pairs. -/
def ConfigFileParse.pass (c : ConfigFileParse) : ConfigFileParse :=
  c.pathKVData.foldl settle c

theorem call_of_path {g : Getter} {k : PathKey} (hg : g.path = some k)
    (c : ConfigFileParse) : c.call g = (c.getPath k).map Prod.snd := by
  cases g with
  | getStaticPath =>
      cases hg
      rfl
  | getPagesPath =>
      cases hg
      rfl
  | getListenPort => cases hg

theorem call_of_no_path {g : Getter} (hg : g.path = none)
    (c : ConfigFileParse) : c.call g = c.parseSetting := by
  cases g with
  | getStaticPath => cases hg
  | getPagesPath => cases hg
  | getListenPort =>
      show (c.parseSetting >>= fun c => _).map _ = _
      cases c.parseSetting <;> rfl

/-- A getter fails with its pass, -/
theorem call_of_uncovered {c : ConfigFileParse}
    (h : Uncovered c.rootDir c.pathKVData) (g : Getter) :
    c.call g = .error .vectorRange := by
  cases hg : g.path with
  | none => rw [call_of_no_path hg, parseSetting_of_uncovered h]
  | some k =>
      rw [call_of_path hg, getPath_eq, parseSetting_of_uncovered h]
      rfl

/-- or when the pass leaves its path empty; -/
theorem call_of_empty {c : ConfigFileParse} {g : Getter} {k : PathKey}
    (hg : g.path = some k) (h : ¬ Uncovered c.rootDir c.pathKVData)
    (hpath : c.pass.path k = []) : c.call g = .error .vectorRange := by
  rw [call_of_path hg, getPath_eq, parseSetting_of_covered h, ok_bind]
  show Except.map _ (if c.pass.path k = [] then _ else _) = _
  rw [if_pos hpath]
  rfl

/-- else it leaves the pairs, the root of the pass and, but for the slash
behind the path it returns, the paths of the pass. -/
theorem call_of_covered {c : ConfigFileParse} {g : Getter}
    (h : ¬ Uncovered c.rootDir c.pathKVData)
    (hpath : ∀ k, g.path = some k → c.pass.path k ≠ []) :
    ∃ c', c.call g = .ok c' ∧ c'.pathKVData = c.pathKVData
      ∧ c'.rootDir = rootAfter c.rootDir c.pathKVData
      ∧ ∀ k, c.pass.path k = [] → c'.path k = [] := by
  have hdata : c.pass.pathKVData = c.pathKVData := pathKVData_foldl _ _
  have hroot : c.pass.rootDir = rootAfter c.rootDir c.pathKVData :=
    rootDir_foldl _ _
  cases hg : g.path with
  | none =>
      rw [call_of_no_path hg, parseSetting_of_covered h]
      exact ⟨c.pass, rfl, hdata, hroot, fun k hk => hk⟩
  | some k =>
      rw [call_of_path hg, getPath_eq, parseSetting_of_covered h, ok_bind]
      refine ⟨c.pass.setPath k (closed (c.pass.path k)), ?_, ?_, ?_, ?_⟩
      · show Except.map _ (if c.pass.path k = [] then _ else _) = _
        rw [if_neg (hpath k hg)]
        rfl
      · rw [pathKVData_setPath, hdata]
      · rw [rootDir_setPath, hroot]
      · intro k' hk'
        have hne : k' ≠ k := by
          intro heq
          subst heq
          exact hpath _ hg hk'
        rw [path_setPath_of_ne _ hne, hk']

end TrashyServer.Config
