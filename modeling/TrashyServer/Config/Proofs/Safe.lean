/-
Which configuration texts the server survives.

Loading fails at a hollow line, and nowhere else when the lines are
short. A getter fails in its pass, where a path has neither a value nor
a root (`Unrooted`), or behind it, where it reads the last character of
a path no pair has set. Neither depends on the calls before: a root that
is kept covers no more pairs than the first pass found covered
(`uncovered_mono`), and a path no pair sets stays as the constructor
left it (`Loaded`). So the calls of a history fail or succeed one by one
(`calls_ok_iff`).
-/
import TrashyServer.Config.Proofs.Setting
import TrashyServer.Config.Proofs.Load

namespace TrashyServer.Config

open FileStream (lines)
open Server (maxline)

-- ================================================================ the calls

/-- Some pair sets the path. -/
def Sets (kvs : List (Str × Str)) (k : PathKey) : Prop :=
  ∃ x ∈ kvs, kindOf x.1 = some (.path k)

/-- A pair sets a path to nothing, before any location. -/
def Unrooted (kvs : List (Str × Str)) : Prop :=
  ∃ before x after, kvs = before ++ x :: after
    ∧ (∃ k, kindOf x.1 = some (.path k)) ∧ x.2 = []
    ∧ ∀ y ∈ before, kindOf y.1 ≠ some .location

/-- What holds of the object from its constructor on. -/
structure Loaded (kvs : List (Str × Str)) (c : ConfigFileParse) : Prop where
  data : c.pathKVData = kvs
  unset : ∀ k, ¬ Sets kvs k → c.path k = []

theorem uncovered_nil_iff {kvs : List (Str × Str)} :
    Uncovered [] kvs ↔ Unrooted kvs := by
  constructor
  · intro h
    obtain ⟨before, x, after, heq, hkind, hroot, hvalue⟩ := h
    exact ⟨before, x, after, heq, hkind, hvalue,
      (rootAfter_eq_nil_iff.mp hroot).2⟩
  · intro h
    obtain ⟨before, x, after, heq, hkind, hvalue, hroot⟩ := h
    exact ⟨before, x, after, heq, hkind,
      rootAfter_eq_nil_iff.mpr ⟨rfl, hroot⟩, hvalue⟩

theorem loaded_new (port : Int) (kvs : List (Str × Str)) :
    Loaded kvs (.new port kvs) := by
  refine ⟨rfl, ?_⟩
  intro k _
  cases k <;> rfl

/-- A covered pass leaves a path empty exactly when no pair sets it. -/
theorem path_pass_eq_nil_iff {kvs : List (Str × Str)} {c : ConfigFileParse}
    (hc : Loaded kvs c) (h : ¬ Uncovered c.rootDir kvs) (k : PathKey) :
    c.pass.path k = [] ↔ ¬ Sets kvs k := by
  unfold ConfigFileParse.pass
  rw [hc.data]
  rcases last_or_none (fun x => kindOf x.1 = some (.path k)) kvs with
    ⟨before, x, after, rfl, hx, hafter⟩ | hnone
  · rw [path_foldl_last hx hafter]
    refine iff_of_false ?_ ?_
    · apply squeeze_ne_nil
      intro hnil
      obtain ⟨hroot, hvalue⟩ := List.append_eq_nil_iff.mp hnil
      exact h ⟨before, x, after, rfl, ⟨k, hx⟩, hroot, hvalue⟩
    · intro hsets
      exact hsets ⟨x, by simp, hx⟩
  · have hsets : ¬ Sets kvs k := by
      intro hset
      obtain ⟨x, hmem, hx⟩ := hset
      exact hnone x hmem hx
    rw [path_foldl_of_none hnone]
    exact iff_of_true (hc.unset k hsets) hsets

/-- One call. -/
theorem call_ok_iff {kvs : List (Str × Str)} {c : ConfigFileParse}
    (hc : Loaded kvs c) (g : Getter) :
    (∃ c', c.call g = .ok c')
      ↔ ¬ Uncovered c.rootDir kvs ∧ ∀ k, g.path = some k → Sets kvs k := by
  by_cases hcovered : Uncovered c.rootDir kvs
  · rw [call_of_uncovered (hc.data.symm ▸ hcovered)]
    simp [hcovered]
  · have hdata : ¬ Uncovered c.rootDir c.pathKVData := hc.data.symm ▸ hcovered
    by_cases hsets : ∀ k, g.path = some k → Sets kvs k
    · obtain ⟨c', hc', -⟩ := call_of_covered hdata fun k hk hnil =>
        (path_pass_eq_nil_iff hc hcovered k).mp hnil (hsets k hk)
      exact iff_of_true ⟨c', hc'⟩ ⟨hcovered, hsets⟩
    · refine iff_of_false ?_ fun h => hsets h.2
      obtain ⟨k, hk⟩ := not_forall.mp hsets
      obtain ⟨hg, hno⟩ := Classical.not_imp.mp hk
      rw [call_of_empty hg hdata ((path_pass_eq_nil_iff hc hcovered k).mpr hno)]
      intro h
      obtain ⟨c', hc'⟩ := h
      cases hc'

/-- What a call keeps. -/
theorem loaded_call {kvs : List (Str × Str)} {c c' : ConfigFileParse}
    {g : Getter} (hc : Loaded kvs c) (hcall : c.call g = .ok c') :
    Loaded kvs c' ∧ c'.rootDir = rootAfter c.rootDir kvs := by
  obtain ⟨hcovered, hsets⟩ := (call_ok_iff hc g).mp ⟨c', hcall⟩
  have hdata : ¬ Uncovered c.rootDir c.pathKVData := hc.data.symm ▸ hcovered
  obtain ⟨c'', hc'', hkvs, hroot, hpaths⟩ := call_of_covered hdata
    fun k hk hnil => (path_pass_eq_nil_iff hc hcovered k).mp hnil (hsets k hk)
  rw [hcall] at hc''
  cases hc''
  rw [hc.data] at hkvs hroot
  refine ⟨⟨hkvs, ?_⟩, hroot⟩
  intro k hno
  exact hpaths k ((path_pass_eq_nil_iff hc hcovered k).mpr hno)

theorem loaded_calls {kvs : List (Str × Str)} (gs : List Getter) :
    ∀ {c c' : ConfigFileParse}, Loaded kvs c → c.calls gs = .ok c' →
      Loaded kvs c' := by
  induction gs with
  | nil =>
      intro c c' hc hcalls
      cases hcalls
      exact hc
  | cons g gs ih =>
      intro c c' hc hcalls
      have hcons : c.calls (g :: gs) = c.call g >>= fun c => c.calls gs :=
        List.foldlM_cons ..
      rw [hcons] at hcalls
      cases hcall : c.call g with
      | error e =>
          rw [hcall, error_bind] at hcalls
          cases hcalls
      | ok c'' =>
          rw [hcall, ok_bind] at hcalls
          exact ih (loaded_call hc hcall).1 hcalls

/-- The calls of a history succeed when every one of them would at the
start. -/
theorem calls_ok_iff {kvs : List (Str × Str)} (gs : List Getter) :
    ∀ {c : ConfigFileParse}, Loaded kvs c →
      ((∃ c', c.calls gs = .ok c')
        ↔ (gs ≠ [] → ¬ Uncovered c.rootDir kvs)
          ∧ ∀ g ∈ gs, ∀ k, g.path = some k → Sets kvs k) := by
  induction gs with
  | nil =>
      intro c _
      exact iff_of_true ⟨c, rfl⟩ ⟨fun h => absurd rfl h,
        fun g hg => absurd hg List.not_mem_nil⟩
  | cons g gs ih =>
      intro c hc
      have hcons : c.calls (g :: gs) = c.call g >>= fun c => c.calls gs :=
        List.foldlM_cons ..
      rw [hcons, List.forall_mem_cons, exists_bind_ok]
      constructor
      · intro h
        obtain ⟨c', hcall, hrest⟩ := h
        obtain ⟨hcovered, hsets⟩ := (call_ok_iff hc g).mp ⟨c', hcall⟩
        have hc' := (loaded_call hc hcall).1
        exact ⟨fun _ => hcovered, hsets, ((ih hc').mp hrest).2⟩
      · intro h
        obtain ⟨hcovered, hsets, hrest⟩ := h
        have hfirst := hcovered (List.cons_ne_nil _ _)
        obtain ⟨c', hcall⟩ := (call_ok_iff hc g).mpr ⟨hfirst, hsets⟩
        obtain ⟨hc', hroot⟩ := loaded_call hc hcall
        refine ⟨c', hcall, (ih hc').mpr ⟨fun _ hagain => hfirst ?_, hrest⟩⟩
        rw [hroot] at hagain
        refine uncovered_mono ?_ hagain
        intro hnil
        exact (rootAfter_eq_nil_iff.mp hnil).1

-- ================================================================= the text

/-- What a configuration file may hold. -/
structure ConfigText where
  text : Str
  nulFree : nul ∉ text
  short : ∀ l ∈ lines text, l.length < maxline

/-- The pairs the lines stand for. -/
def ConfigText.pairs (file : ConfigText) : List (Str × Str) :=
  (lines file.text).filterMap pairOf

/-- The object is built from the file and outlives the calls. -/
def Survives (file : ConfigText) (port : Int) (gs : List Getter) : Prop :=
  ∃ n c c', configFileParse n port (.opens file.text .endOfFile) = some (.ok c)
    ∧ c.calls gs = .ok c'

/-- Of short lines only a hollow one fails to load. -/
theorem configFileParse_ok_iff (file : ConfigText) (port : Int)
    (c : ConfigFileParse) :
    (∃ n, configFileParse n port (.opens file.text .endOfFile) = some (.ok c))
      ↔ (∀ l ∈ lines file.text, ¬ Hollow l) ∧ c = .new port file.pairs := by
  constructor
  · intro h
    obtain ⟨n, hn⟩ := h
    obtain ⟨r, hr, hmap⟩ := Option.map_eq_some_iff.mp hn
    have hclean : ∀ l ∈ lines file.text, ¬ Faulty l := by
      intro l hl hfaulty
      obtain ⟨m, e, he⟩ := loadFileTo_of_faulty .endOfFile ⟨l, hl, hfaulty⟩
      rw [loadFileTo_unique hr he] at hmap
      cases hmap
    obtain ⟨m, hm⟩ := loadFileTo_of_clean hclean
    rw [loadFileTo_unique hr hm] at hmap
    cases hmap
    exact ⟨fun l hl hollow => hclean l hl (.inr hollow), rfl⟩
  · intro h
    obtain ⟨hhollow, rfl⟩ := h
    have hclean : ∀ l ∈ lines file.text, ¬ Faulty l := by
      intro l hl hfaulty
      exact hhollow l hl (hfaulty.resolve_left (not_overlong (file.short l hl)))
    obtain ⟨n, hn⟩ := loadFileTo_of_clean hclean
    refine ⟨n, ?_⟩
    unfold configFileParse
    rw [hn]
    rfl

/-- A text is survived exactly when none of its lines is hollow, every
path without a value has a location before it, and every path that is
asked for is set. -/
theorem survives_iff (file : ConfigText) (port : Int) (gs : List Getter) :
    Survives file port gs
      ↔ (∀ l ∈ lines file.text, ¬ Hollow l)
        ∧ (gs ≠ [] → ¬ Unrooted file.pairs)
        ∧ ∀ g ∈ gs, ∀ k, g.path = some k → Sets file.pairs k := by
  have hcalls := calls_ok_iff gs (loaded_new port file.pairs)
  rw [show (ConfigFileParse.new port file.pairs).rootDir = [] from rfl,
    uncovered_nil_iff] at hcalls
  constructor
  · intro h
    obtain ⟨n, c, c', hnew, hc'⟩ := h
    obtain ⟨hhollow, rfl⟩ := (configFileParse_ok_iff file port c).mp ⟨n, hnew⟩
    exact ⟨hhollow, hcalls.mp ⟨c', hc'⟩⟩
  · intro h
    obtain ⟨hhollow, hrest⟩ := h
    obtain ⟨n, hn⟩ := (configFileParse_ok_iff file port _).mpr ⟨hhollow, rfl⟩
    obtain ⟨c', hc'⟩ := hcalls.mpr hrest
    exact ⟨n, _, c', hn, hc'⟩

/-- A file of one space. -/
theorem space_not_survived : ∃ (file : ConfigText) (port : Int),
    file.text = bytes " " ∧ ¬ Survives file port [] := by
  have hnul : nul ∉ bytes " " := by decide
  have hshort : ∀ l ∈ lines (bytes " "), l.length < maxline := by decide
  refine ⟨⟨bytes " ", hnul, hshort⟩, 0, rfl, ?_⟩
  intro h
  obtain ⟨n, c, c', hnew, -⟩ := h
  obtain ⟨r, hr, hmap⟩ := Option.map_eq_some_iff.mp hnew
  have hthrows : loadFileTo 1 (.opens (bytes " ") .endOfFile)
      = some (.error .substrRange) := by decide
  rw [loadFileTo_unique hr hthrows] at hmap
  cases hmap

end TrashyServer.Config
