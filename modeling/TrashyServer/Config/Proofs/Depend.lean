/-
What the paths of a configuration depend on.

# Arrangements

An `Arrangement` is a configuration without the values of its four
settings: the order of the lines, and the pairs between them. `filled`
puts values in. The plain one is `reference`; that the paths depend on
the values alone is that every arrangement, after any calls, gives what
`reference` gives (`DependsOnly`).

# When it holds

A key is taken for every name it contains, and a pass goes from top to
bottom. So the pair that a path comes from is the last of its kind, and
the root it is put behind is that of the last location before it.
`Settled` says that these are the two settings themselves, and that no
path without a value stands before all locations. Where one of these
fails, two choices of values show it: the outcome is the same for both,
and the reference's is not.
-/
import TrashyServer.Config.Proofs.Safe

namespace TrashyServer.Config

-- ============================================================== the settings

/-- The keys of the four settings. -/
def names : List Str :=
  [bytes "listen_port", bytes "location", bytes "html_pages",
    bytes "static_path"]

/-- A key that is none of the four. -/
abbrev OtherKey := { key : Str // key ∉ names }

/-- A line of the configuration: one of the settings, whose value is left
open, or another pair. -/
inductive Slot
  | listenPort
  | location
  | path (k : PathKey)
  | other (key : OtherKey) (value : Str)
deriving DecidableEq

/-- Values for the four settings. -/
structure Values where
  listenPort : Str
  location : Str
  path : PathKey → Str

/-- The key of a path. -/
def PathKey.name : PathKey → Str
  | .htmlPages => bytes "html_pages"
  | .staticPath => bytes "static_path"

/-- The pair of a line. -/
def Slot.pair (v : Values) : Slot → Str × Str
  | .listenPort => (bytes "listen_port", v.listenPort)
  | .location => (bytes "location", v.location)
  | .path k => (k.name, v.path k)
  | .other key value => (key.val, value)

/-- What the key of a line is taken for. -/
def Slot.kind : Slot → Option Kind
  | .listenPort => some .listenPort
  | .location => some .location
  | .path k => some (.path k)
  | .other key _ => kindOf key.val

/-- The configuration with its values. -/
def filled (v : Values) (slots : List Slot) : List (Str × Str) :=
  slots.map (Slot.pair v)

/-- The four settings in order, and nothing else. -/
def reference : List Slot :=
  [.listenPort, .location, .path .htmlPages, .path .staticPath]

/-- The path that a getter returns after a history of calls. -/
def outcome (slots : List Slot) (v : Values) (port : Int) (gs : List Getter)
    (k : PathKey) : Except Fault Str := do
  let c ← (ConfigFileParse.new port (filled v slots)).calls gs
  (c.getPath k).map Prod.fst

/-- A configuration in which each setting occurs exactly once. -/
structure Arrangement where
  slots : List Slot
  listenPort : slots.count .listenPort = 1
  location : slots.count .location = 1
  path : ∀ k, slots.count (.path k) = 1

/-- The paths are those of the reference: they depend on the four values
and on nothing else. -/
def DependsOnly (a : Arrangement) : Prop :=
  ∀ v port gs k, outcome a.slots v port gs k = outcome reference v port [] k

/-- Each path comes from its own setting and the location, and no path
stands bare. -/
structure Settled (slots : List Slot) : Prop where
  /-- The last location before a path is the setting. -/
  rooted : ∀ k before after, slots = before ++ .path k :: after →
    ∃ b a, before = b ++ .location :: a ∧ ∀ s ∈ a, s.kind ≠ some .location
  /-- No other key is taken for a path behind it. -/
  last : ∀ k before after, slots = before ++ .path k :: after →
    ∀ s ∈ after, s.kind ≠ some (.path k)
  /-- Another key taken for a path has a value, or a location before it. -/
  covered : ∀ key before after, slots = before ++ .other key [] :: after →
    (∃ k, kindOf key.val = some (.path k)) →
    ∃ s ∈ before, s.kind = some .location

-- ================================================================= the kinds

theorem kindOf_pair (v : Values) (s : Slot) : kindOf (s.pair v).1 = s.kind := by
  cases s with
  | listenPort => rfl
  | location => rfl
  | path k => cases k <;> rfl
  | other key value => rfl

/-- The line of a kind is the setting or another pair. -/
theorem kind_eq_location {s : Slot} (h : s.kind = some .location) :
    s = .location ∨ ∃ key value, s = .other key value := by
  cases s with
  | listenPort => cases h
  | location => exact .inl rfl
  | path k => cases h
  | other key value => exact .inr ⟨key, value, rfl⟩

theorem kind_eq_path {s : Slot} {k : PathKey} (h : s.kind = some (.path k)) :
    s = .path k ∨ ∃ key value, s = .other key value := by
  cases s with
  | listenPort => cases h
  | location => cases h
  | path k' =>
      cases h
      exact .inl rfl
  | other key value => exact .inr ⟨key, value, rfl⟩

theorem filled_kind {v : Values} {slots : List Slot} {kind : Option Kind}
    (h : ∀ s ∈ slots, s.kind ≠ kind) :
    ∀ x ∈ filled v slots, kindOf x.1 ≠ kind := by
  intro x hx
  obtain ⟨s, hs, rfl⟩ := List.mem_map.mp hx
  rw [kindOf_pair]
  exact h s hs

theorem filled_append (v : Values) (before after : List Slot) (s : Slot) :
    filled v (before ++ s :: after)
      = filled v before ++ s.pair v :: filled v after := by
  unfold filled
  rw [List.map_append, List.map_cons]

/-- The root that some lines leave depends on the location alone. -/
theorem rootAfter_filled (v : Values) (slots : List Slot) :
    (∃ b a, slots = b ++ .location :: a ∧ ∀ s ∈ a, s.kind ≠ some .location)
      ∨ ∀ v', rootAfter [] (filled v slots) = rootAfter [] (filled v' slots) := by
  rcases last_or_none (fun s : Slot => s.kind = some .location) slots with
    ⟨b, s, a, rfl, hs, ha⟩ | hnone
  · rcases kind_eq_location hs with rfl | ⟨key, value, rfl⟩
    · exact .inl ⟨b, a, rfl, ha⟩
    · right
      intro v'
      have hlast : ∀ v, rootAfter [] (filled v (b ++ .other key value :: a))
          = rootOf value := by
        intro v
        rw [filled_append]
        exact rootAfter_last ((kindOf_pair v _).trans hs) (filled_kind ha) []
      rw [hlast, hlast]
  · right
    intro v'
    rw [rootAfter_of_none (filled_kind hnone),
      rootAfter_of_none (filled_kind hnone)]

/-- The root behind a location that is the last one. -/
theorem rootAfter_location {v : Values} {b a : List Slot}
    (ha : ∀ s ∈ a, s.kind ≠ some .location) (root : Str) :
    rootAfter root (filled v (b ++ .location :: a)) = rootOf v.location := by
  rw [filled_append]
  exact rootAfter_last rfl (filled_kind ha) root

theorem rootAfter_congr (v v' : Values) (h : v.location = v'.location)
    (slots : List Slot) :
    rootAfter [] (filled v slots) = rootAfter [] (filled v' slots) := by
  rcases rootAfter_filled v slots with ⟨b, a, rfl, ha⟩ | hall
  · rw [rootAfter_location ha, rootAfter_location ha, h]
  · exact hall v'

-- ======================================================= settled is enough

/-- No pass over a settled configuration fails. -/
theorem Settled.not_uncovered {slots : List Slot} (h : Settled slots)
    (v : Values) (root : Str) : ¬ Uncovered root (filled v slots) := by
  intro hu
  have hnil : Uncovered [] (filled v slots) := uncovered_mono (fun _ => rfl) hu
  obtain ⟨before, x, after, heq, ⟨k, hx⟩, hroot, hvalue⟩ := hnil
  obtain ⟨bs, rest, rfl, hbefore, hrest⟩ := List.map_eq_append_iff.mp heq
  obtain ⟨s, as, rfl, rfl, -⟩ := List.map_eq_cons_iff.mp hrest
  rw [kindOf_pair] at hx
  rw [← hbefore, rootAfter_eq_nil_iff] at hroot
  have hlocation : ∃ s ∈ bs, s.kind = some .location := by
    rcases kind_eq_path hx with rfl | ⟨key, value, rfl⟩
    · obtain ⟨b, a, rfl, -⟩ := h.rooted k bs as rfl
      exact ⟨.location, by simp, rfl⟩
    · have hempty : value = [] := hvalue
      subst hempty
      exact h.covered key bs as rfl ⟨k, hx⟩
  obtain ⟨s', hs', hkind⟩ := hlocation
  apply hroot.2 (s'.pair v) (List.mem_map_of_mem hs')
  rw [kindOf_pair, hkind]

/-- The paths of a settled configuration. -/
theorem Settled.outcome_eq {slots : List Slot} (h : Settled slots)
    (hpath : ∀ k, .path k ∈ slots) (v : Values) (port : Int)
    (gs : List Getter) (k : PathKey) :
    outcome slots v port gs k
      = .ok (closed (squeeze (rootOf v.location ++ v.path k))) := by
  have hnew := loaded_new port (filled v slots)
  have hsets : ∀ g ∈ gs, ∀ k, g.path = some k → Sets (filled v slots) k := by
    intro g _ k _
    refine ⟨(Slot.path k).pair v, List.mem_map_of_mem (hpath k), ?_⟩
    rw [kindOf_pair]
    rfl
  obtain ⟨c, hc⟩ := (calls_ok_iff gs hnew).mpr
    ⟨fun _ => h.not_uncovered v _, hsets⟩
  have hdata := (loaded_calls gs hnew hc).data
  obtain ⟨before, after, rfl⟩ := List.append_of_mem (hpath k)
  obtain ⟨b, a, rfl, ha⟩ := h.rooted k before after rfl
  have hlast := h.last k (b ++ .location :: a) after rfl
  have hcovered : ¬ Uncovered c.rootDir c.pathKVData := by
    rw [hdata]
    exact h.not_uncovered v _
  unfold outcome
  rw [hc, ok_bind, getPath_of_covered hcovered
    (hdata.trans (filled_append v _ after (.path k)))
    (kindOf_pair v (.path k)) (filled_kind hlast), rootAfter_location ha]
  rfl

/-- The four settings in any order are settled, if the location comes
before the paths. -/
theorem settled_of_perm {slots : List Slot} (hperm : slots.Perm reference)
    (hbefore : ∀ k before after, slots = before ++ .path k :: after →
      .location ∈ before) : Settled slots := by
  have hnodup : slots.Nodup := hperm.nodup_iff.mpr (by decide)
  have hno : ∀ key value, .other key value ∉ slots := by
    intro key value hmem
    have href := hperm.mem_iff.mp hmem
    simp [reference] at href
  refine ⟨?_, ?_, ?_⟩
  · intro k before after heq
    obtain ⟨b, a, rfl⟩ := List.append_of_mem (hbefore k before after heq)
    refine ⟨b, a, rfl, ?_⟩
    intro s hs hkind
    have hmem : s ∈ slots := by
      rw [heq]
      simp [hs]
    rcases kind_eq_location hkind with rfl | ⟨key, value, rfl⟩
    · rw [heq, List.append_assoc] at hnodup
      have hrest := (List.nodup_append.mp hnodup).2.1
      exact (List.nodup_cons.mp hrest).1 (List.mem_append_left _ hs)
    · exact hno key value hmem
  · intro k before after heq s hs hkind
    have hmem : s ∈ slots := by
      rw [heq]
      simp [hs]
    rcases kind_eq_path hkind with rfl | ⟨key, value, rfl⟩
    · rw [heq] at hnodup
      have hrest := (List.nodup_append.mp hnodup).2.1
      exact (List.nodup_cons.mp hrest).1 hs
    · exact hno key value hmem
  · intro key before after heq _
    refine absurd ?_ (hno key [])
    rw [heq]
    simp

theorem settled_reference : Settled reference := by
  apply settled_of_perm (List.Perm.refl _)
  intro k before after heq
  unfold reference at heq
  rcases before with - | ⟨s, - | ⟨s', before⟩⟩
  · cases heq
  · cases heq
  · obtain ⟨-, heq⟩ := List.cons.inj heq
    obtain ⟨rfl, -⟩ := List.cons.inj heq
    simp

/-- What the reference gives. -/
theorem outcome_reference (v : Values) (port : Int) (k : PathKey) :
    outcome reference v port [] k
      = .ok (closed (squeeze (rootOf v.location ++ v.path k))) := by
  refine settled_reference.outcome_eq ?_ v port [] k
  intro k
  cases k <;> simp [reference]

-- ====================================================== settled is necessary

/-- The path of a first call that succeeds. -/
theorem outcome_of_ok {slots : List Slot} {v : Values} {port : Int}
    {k : PathKey} {p : Str} (h : outcome slots v port [] k = .ok p)
    {before after : List Slot} {s : Slot} (heq : slots = before ++ s :: after)
    (hs : s.kind = some (.path k))
    (hafter : ∀ s ∈ after, s.kind ≠ some (.path k)) :
    p = closed (squeeze (rootAfter [] (filled v before) ++ (s.pair v).2)) := by
  have hnew : outcome slots v port [] k
      = ((ConfigFileParse.new port (filled v slots)).getPath k).map Prod.fst :=
    ok_bind ..
  rw [hnew] at h
  have hdata : (ConfigFileParse.new port (filled v slots)).pathKVData
      = filled v before ++ s.pair v :: filled v after := by
    rw [← filled_append, ← heq]
    rfl
  have hpath := getPath_of_covered (covered_of_getPath h) hdata
    ((kindOf_pair v s).trans hs) (filled_kind hafter)
  rw [h] at hpath
  exact Except.ok.inj hpath

/-- The values of the tests. -/
def probe (location path : Str) : Values := ⟨[], location, fun _ => path⟩

/-- Two locations are told apart, -/
theorem reference_location (port : Int) (k : PathKey) :
    outcome reference (probe (bytes "a") (bytes "c")) port [] k
      ≠ outcome reference (probe (bytes "b") (bytes "c")) port [] k := by
  rw [outcome_reference, outcome_reference]
  show ¬ (Except.ok (closed (squeeze (rootOf (bytes "a") ++ bytes "c")))
    : Except Fault Str)
    = .ok (closed (squeeze (rootOf (bytes "b") ++ bytes "c")))
  decide

/-- and so are two paths. -/
theorem reference_path (port : Int) (k : PathKey) :
    outcome reference (probe [] (bytes "a")) port [] k
      ≠ outcome reference (probe [] (bytes "b")) port [] k := by
  rw [outcome_reference, outcome_reference]
  show ¬ (Except.ok (closed (squeeze (rootOf [] ++ bytes "a")))
    : Except Fault Str) = .ok (closed (squeeze (rootOf [] ++ bytes "b")))
  decide

/-- No other key is taken for a path behind its setting: the path would
not be told apart. -/
theorem DependsOnly.last {a : Arrangement} (h : DependsOnly a) (k : PathKey)
    {before after : List Slot} (heq : a.slots = before ++ .path k :: after) :
    ∀ s ∈ after, s.kind ≠ some (.path k) := by
  rcases last_or_none (fun s : Slot => s.kind = some (.path k)) after with
    ⟨b, s, r, rfl, hs, hr⟩ | hnone
  · exfalso
    rcases kind_eq_path hs with rfl | ⟨key, value, rfl⟩
    · -- the setting stands in the configuration once
      have hcount := a.path k
      rw [heq, List.count_append, List.count_cons_self, List.count_append,
        List.count_cons_self] at hcount
      omega
    · have hsplit : a.slots
          = (before ++ .path k :: b) ++ .other key value :: r := by
        rw [heq, List.append_assoc]
        rfl
      have hsame : ∀ path, outcome reference (probe [] path) 0 [] k
          = .ok (closed (squeeze (rootAfter []
              (filled (probe [] []) (before ++ .path k :: b)) ++ value))) := by
        intro path
        have hok := h (probe [] path) 0 [] k
        rw [outcome_reference] at hok
        rw [outcome_reference, outcome_of_ok hok hsplit hs hr,
          rootAfter_congr (probe [] path) (probe [] []) rfl]
        rfl
      exact reference_path 0 k ((hsame _).trans (hsame _).symm)
  · exact hnone

/-- The root a path is put behind comes from the location: the location
would not be told apart. -/
theorem DependsOnly.rooted {a : Arrangement} (h : DependsOnly a) (k : PathKey)
    {before after : List Slot} (heq : a.slots = before ++ .path k :: after) :
    ∃ b r, before = b ++ .location :: r ∧ ∀ s ∈ r, s.kind ≠ some .location := by
  rcases rootAfter_filled (probe [] []) before with hlast | hall
  · exact hlast
  · exfalso
    have hsame : ∀ location,
        outcome reference (probe location (bytes "c")) 0 [] k
        = .ok (closed (squeeze (rootAfter [] (filled (probe [] []) before)
            ++ bytes "c"))) := by
      intro location
      have hok := h (probe location (bytes "c")) 0 [] k
      rw [outcome_reference] at hok
      rw [outcome_reference, outcome_of_ok hok heq rfl (h.last k heq), hall]
      rfl
    exact reference_location 0 k ((hsame _).trans (hsame _).symm)

/-- No path stands bare: the getter would fail. -/
theorem DependsOnly.covered {a : Arrangement} (h : DependsOnly a)
    {key : OtherKey} {before after : List Slot}
    (heq : a.slots = before ++ .other key [] :: after)
    (hkind : ∃ k, kindOf key.val = some (.path k)) :
    ∃ s ∈ before, s.kind = some .location := by
  by_contra hno
  have hok := h (probe [] []) 0 [] .htmlPages
  rw [outcome_reference] at hok
  apply covered_of_getPath hok
  refine ⟨filled (probe [] []) before, (Slot.other key []).pair (probe [] []),
    filled (probe [] []) after, ?_, hkind, ?_, rfl⟩
  · rw [← filled_append, ← heq]
    rfl
  · refine rootAfter_of_none (filled_kind ?_)
    intro s hs hlocation
    exact hno ⟨s, hs, hlocation⟩

/-- The paths depend on the values of the settings alone exactly when the
configuration is settled. -/
theorem dependsOnly_iff (a : Arrangement) :
    DependsOnly a ↔ Settled a.slots := by
  constructor
  · intro h
    exact ⟨fun k before after heq => h.rooted k heq,
      fun k before after heq => h.last k heq,
      fun key before after heq hkind => h.covered heq hkind⟩
  · intro h v port gs k
    have hpath : ∀ k, .path k ∈ a.slots := by
      intro k
      apply List.count_pos_iff.mp
      rw [a.path k]
      exact Nat.one_pos
    rw [h.outcome_eq hpath, outcome_reference]

/-- A path before the location. -/
def pagesFirst : Arrangement where
  slots := [.listenPort, .path .htmlPages, .location, .path .staticPath]
  listenPort := rfl
  location := rfl
  path := fun k => by cases k <;> rfl

/-- It is put behind no root at the first call, and behind the location at
the second. -/
theorem pagesFirst_depends : ¬ DependsOnly pagesFirst := by
  intro h
  have hfirst := h (probe (bytes "a") (bytes "c")) 0 [] .htmlPages
  have hpath : outcome pagesFirst.slots (probe (bytes "a") (bytes "c")) 0 []
      .htmlPages = .ok (bytes "c/") := by
    decide
  rw [hpath, outcome_reference] at hfirst
  revert hfirst
  decide

end TrashyServer.Config
