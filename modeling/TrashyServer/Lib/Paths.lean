/-
Lexical normal forms of paths.

A path is a list of steps, each up or down to a name. Its normal form
is so many levels up and then down by names; what a step does to a
normal form is `Normal.step`, and `norm` is the fold. Two paths in a
row normalise to the join of their normal forms (`norm_append`), so a
fixed path is left only by way of the second path's levels up.

A path that starts at a root cannot leave it: a step up there does
nothing, and only the names remain (`normRoot`).

Containment is a prefix question on the normal forms, and both of its
answers are exact: `comps_prefix_join_iff` where the path is relative,
`names_prefix_join_iff` at a root.
-/
import Mathlib.Data.List.Infix

namespace Paths

universe u

-- ============================================================ normal forms

/-- Up one level, or down to a name. -/
inductive Step (α : Type u)
  | up
  | name (a : α)
deriving DecidableEq

/-- So many levels up, then down by these names. -/
structure Normal (α : Type u) where
  ups : Nat
  names : List α

variable {α : Type u}

/-- One more step. -/
def Normal.step (p : Normal α) : Step α → Normal α
  | .name a => ⟨p.ups, p.names ++ [a]⟩
  | .up =>
      if p.names.isEmpty then ⟨p.ups + 1, []⟩ else ⟨p.ups, p.names.dropLast⟩

/-- The normal form of a list of steps. -/
def norm (steps : List (Step α)) : Normal α := steps.foldl Normal.step ⟨0, []⟩

/-- The names below a root: a step up at the root stays there. -/
def normRoot (steps : List (Step α)) : List α :=
  steps.foldl
    (fun names s => match s with
      | .up => names.dropLast
      | .name a => names ++ [a]) []

/-- `q` gone from where `p` ends. -/
def Normal.join (p q : Normal α) : Normal α :=
  if q.ups ≤ p.names.length then
    ⟨p.ups, p.names.take (p.names.length - q.ups) ++ q.names⟩
  else ⟨p.ups + (q.ups - p.names.length), q.names⟩

theorem Normal.join_here (p : Normal α) : p.join ⟨0, []⟩ = p := by
  unfold join
  simp

/-- A step behind a join is a step of its second part. -/
theorem Normal.join_step (p q : Normal α) (s : Step α) :
    p.join (q.step s) = (p.join q).step s := by
  cases s with
  | name a =>
      unfold join step
      by_cases hle : q.ups ≤ p.names.length
      · simp only [if_pos hle, List.append_assoc]
      · simp only [if_neg hle]
  | up =>
      obtain ⟨k, names⟩ := q
      unfold join step
      by_cases hempty : names.isEmpty = true
      · -- the second part is at its own start: the step leaves it
        obtain rfl := List.isEmpty_iff.mp hempty
        simp only [List.isEmpty_nil, if_true, List.append_nil]
        by_cases hlt : k < p.names.length
        · have hne : ¬ (p.names.take (p.names.length - k)).isEmpty = true := by
            rw [List.isEmpty_iff, ← List.length_eq_zero_iff, List.length_take]
            omega
          simp only [if_pos (Nat.succ_le_of_lt hlt), if_pos (Nat.le_of_lt hlt),
            if_neg hne]
          have hlen : p.names.length - (k + 1)
              = min (min (p.names.length - k) p.names.length - 1)
                (p.names.length - k) := by omega
          rw [List.dropLast_eq_take, List.take_take, List.length_take, hlen]
        · by_cases heq : k = p.names.length
          · simp [heq]
          · simp only [if_neg (by omega : ¬ k + 1 ≤ p.names.length),
              if_neg (by omega : ¬ k ≤ p.names.length), List.isEmpty_nil, if_true,
              Normal.mk.injEq, and_true]
            omega
      · have hne : names ≠ [] := fun h => hempty (List.isEmpty_iff.mpr h)
        simp only [if_neg hempty]
        by_cases hle : k ≤ p.names.length
        · have hne' : ¬ (p.names.take (p.names.length - k) ++ names).isEmpty
              = true := by
            simp [hne]
          simp only [if_pos hle, if_neg hne']
          rw [List.dropLast_append_of_ne_nil hne]
        · simp only [if_neg hle, if_neg hempty]

/-- Going on from a normal form is joining. -/
theorem foldl_step (p : Normal α) (steps : List (Step α)) :
    steps.foldl Normal.step p = p.join (norm steps) := by
  induction steps using List.reverseRecOn with
  | nil => exact p.join_here.symm
  | append_singleton steps s ih =>
      unfold norm at ih ⊢
      rw [List.foldl_append, List.foldl_append, ih]
      exact (p.join_step _ s).symm

/-- Two paths in a row. -/
theorem norm_append (s t : List (Step α)) :
    norm (s ++ t) = (norm s).join (norm t) := by
  unfold norm
  rw [List.foldl_append]
  exact foldl_step _ t

/-- At a root the levels up are forgotten. -/
theorem normRoot_eq (steps : List (Step α)) :
    normRoot steps = (norm steps).names := by
  induction steps using List.reverseRecOn with
  | nil => rfl
  | append_singleton steps s ih =>
      unfold norm normRoot at ih ⊢
      rw [List.foldl_append, List.foldl_append, ih]
      cases s with
      | name a => rfl
      | up =>
          simp only [List.foldl_cons, List.foldl_nil, Normal.step]
          split
          · next hempty => rw [List.isEmpty_iff.mp hempty, List.dropLast_nil]
          · rfl

-- ============================================================= containment

/-- The normal form written out. -/
def Normal.comps (p : Normal α) : List (Step α) :=
  List.replicate p.ups .up ++ p.names.map .name

/-- The second path comes back: as many of the last names as it climbs
over are the first it goes down by. -/
def Returns (names : List α) (q : Normal α) : Prop :=
  names.drop (names.length - q.ups) <+: q.names

theorem Returns.of_ups_eq_zero (names : List α) {q : Normal α} (h : q.ups = 0) :
    Returns names q := by
  unfold Returns
  rw [h, Nat.sub_zero, List.drop_length]
  exact List.nil_prefix

/-- A path of no more levels up than there are names stays inside
exactly when it comes back. -/
theorem names_prefix_join_iff (p q : Normal α) :
    p.names <+: (p.join q).names ↔ if q.ups ≤ p.names.length
      then Returns p.names q else p.names <+: q.names := by
  unfold Normal.join
  by_cases hle : q.ups ≤ p.names.length
  · rw [if_pos hle, if_pos hle]
    have hsplit := List.take_append_drop (p.names.length - q.ups) p.names
    show p.names <+: p.names.take (p.names.length - q.ups) ++ q.names ↔ _
    conv => lhs; lhs; rw [← hsplit]
    exact List.prefix_append_right_inj _
  · rw [if_neg hle, if_neg hle]

/-- With the levels up kept, a path that climbs over all the names is
inside only where there are none. -/
theorem comps_prefix_join_iff (p q : Normal α) :
    p.comps <+: (p.join q).comps ↔ if q.ups ≤ p.names.length
      then Returns p.names q else p.names = [] := by
  by_cases hle : q.ups ≤ p.names.length
  · have hups : (p.join q).ups = p.ups := by
      unfold Normal.join
      rw [if_pos hle]
    have hnames := names_prefix_join_iff p q
    rw [if_pos hle] at hnames ⊢
    unfold Normal.comps
    rw [hups, List.prefix_append_right_inj, ← hnames]
    exact List.prefix_map_iff_of_injective fun _ _ h => Step.name.inj h
  · rw [if_neg hle]
    unfold Normal.join Normal.comps
    rw [if_neg hle, List.replicate_add, List.append_assoc,
      List.prefix_append_right_inj]
    obtain ⟨d, hd⟩ : ∃ d, q.ups - p.names.length = d + 1 :=
      ⟨q.ups - p.names.length - 1, by omega⟩
    rw [hd, List.replicate_succ]
    cases p.names with
    | nil => simp
    | cons a names => simp

end Paths
