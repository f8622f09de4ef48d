/-
Which paths `check_dir` brings to its normal form.

One walk takes the first of every two slashes out and passes the second
(`squeeze`), so of a run of slashes every other one is left. A path
without two slashes in a row is not changed (`squeeze_eq_self_iff`), and
what is left has no two of them exactly if the path had no three
(`infix_squeeze_iff`).
-/
import TrashyServer.Config.Proofs.Setting

namespace TrashyServer.Config

/-- `"//"`. -/
def double : Str := [slash, slash]

/-- Three slashes in a row. -/
def triple : Str := [slash, slash, slash]

-- ================================================================ the fronts

/-- A slash in front of a text makes two if the text starts with one. -/
theorem double_prefix_cons_iff {b : UInt8} {s : Str} :
    double <+: b :: s ↔ b = slash ∧ s.head? = some slash := by
  unfold double
  cases s with
  | nil => simp [List.cons_prefix_cons]
  | cons c s => simp [List.cons_prefix_cons, eq_comm]

/-- And three if the text starts with two. -/
theorem triple_prefix_cons_iff {b : UInt8} {s : Str} :
    triple <+: b :: s ↔ b = slash ∧ double <+: s := by
  unfold triple double
  rw [List.cons_prefix_cons, eq_comm]

/-- A single byte is too short for either. -/
theorem not_infix_singleton {p : Str} {b : UInt8} (h : 2 ≤ p.length) :
    ¬ p <:+: [b] := by
  intro hinfix
  have hle := hinfix.length_le
  rw [List.length_singleton] at hle
  omega

/-- Two slashes start with one. -/
theorem head?_of_double_prefix {s : Str} (h : double <+: s) :
    s.head? = some slash := by
  obtain ⟨rest, rfl⟩ := h
  rfl

-- =============================================================== normal form

/-- Two slashes are left where there were three. -/
theorem infix_squeeze_iff (s : Str) :
    double <:+: squeeze s ↔ triple <:+: s := by
  induction s using squeeze.induct with
  | case1 => simp [squeeze, double, triple]
  | case2 b =>
      have hone : squeeze [b] = [b] := rfl
      rw [hone]
      apply iff_of_false
      · exact not_infix_singleton (Nat.le_refl 2)
      · exact not_infix_singleton (Nat.le_succ 2)
  | case3 b c s h ih =>
      obtain ⟨rfl, rfl⟩ := h
      have hsqueeze : squeeze (slash :: slash :: s) = slash :: squeeze s := by
        rw [squeeze, if_pos ⟨rfl, rfl⟩]
      rw [hsqueeze, List.infix_cons_iff, List.infix_cons_iff,
        List.infix_cons_iff, double_prefix_cons_iff,
        triple_prefix_cons_iff, triple_prefix_cons_iff,
        double_prefix_cons_iff, head?_squeeze, ih]
      -- two slashes in front of the rest are covered by one in front of it
      constructor
      · intro hor
        rcases hor with hfront | hrest
        · exact Or.inl ⟨rfl, hfront⟩
        · exact Or.inr (Or.inr hrest)
      · intro hor
        rcases hor with hfront | hfront | hrest
        · exact Or.inl hfront.2
        · exact Or.inl ⟨rfl, head?_of_double_prefix hfront.2⟩
        · exact Or.inr hrest
  | case4 b c s h ih =>
      have hsqueeze : squeeze (b :: c :: s) = b :: squeeze (c :: s) := by
        rw [squeeze, if_neg h]
      have hdouble : ¬ double <+: b :: squeeze (c :: s) := by
        rw [double_prefix_cons_iff, head?_squeeze]
        simpa using h
      have htriple : ¬ triple <+: b :: c :: s := by
        rw [triple_prefix_cons_iff]
        exact fun hfront => h ⟨hfront.1, by
          simpa using head?_of_double_prefix hfront.2⟩
      rw [hsqueeze, List.infix_cons_iff, List.infix_cons_iff,
        or_iff_right hdouble, or_iff_right htriple]
      exact ih

/-- The walk never makes a path longer. -/
theorem length_squeeze_le (s : Str) : (squeeze s).length ≤ s.length := by
  induction s using squeeze.induct with
  | case1 => exact Nat.le_refl 0
  | case2 b => exact Nat.le_refl 1
  | case3 b c s h ih =>
      rw [squeeze, if_pos h, List.length_cons, List.length_cons,
        List.length_cons]
      omega
  | case4 b c s h ih =>
      rw [squeeze, if_neg h, List.length_cons, List.length_cons]
      exact Nat.succ_le_succ ih

/-- Exactly the paths without two slashes in a row stay as they are. -/
theorem squeeze_eq_self_iff (s : Str) :
    squeeze s = s ↔ ¬ double <:+: s := by
  induction s using squeeze.induct with
  | case1 => simp [squeeze, double]
  | case2 b =>
      apply iff_of_true
      · rfl
      · exact not_infix_singleton (Nat.le_refl 2)
  | case3 b c s h ih =>
      obtain ⟨rfl, rfl⟩ := h
      have hlonger : squeeze (slash :: slash :: s) ≠ slash :: slash :: s := by
        intro heq
        have hlen := congrArg List.length heq
        have hle := length_squeeze_le s
        rw [squeeze, if_pos ⟨rfl, rfl⟩, List.length_cons, List.length_cons,
          List.length_cons] at hlen
        omega
      refine iff_of_false hlonger fun hno => hno ?_
      exact List.IsPrefix.isInfix ⟨s, rfl⟩
  | case4 b c s h ih =>
      have hdouble : ¬ double <+: b :: c :: s := by
        rw [double_prefix_cons_iff]
        simpa using h
      rw [squeeze, if_neg h, List.infix_cons_iff, or_iff_right hdouble, ← ih]
      exact List.cons_inj_right b

-- ================================================================= check_dir

/-- The result has no two slashes in a row, and applying `check_dir`
again leaves it as it is. -/
def Normalised (path : Str) : Prop :=
  ∃ str, checkDir path = .ok str ∧ ¬ double <:+: str ∧ checkDir str = .ok str

/-- When `check_dir` reaches its normal form. For every path that is not
empty: no two adjacent slashes are in the result, and it is left as it
is by another call, exactly when no three adjacent slashes are in the
path. -/
theorem normalised_iff (b : UInt8) (path : Str) :
    Normalised (b :: path) ↔ ¬ triple <:+: b :: path := by
  have hne : b :: path ≠ [] := List.cons_ne_nil _ _
  have hdir := checkDir_eq hne
  rw [← infix_squeeze_iff]
  constructor
  · intro h
    obtain ⟨str, hstr, hdouble, -⟩ := h
    rw [hdir] at hstr
    cases hstr
    exact hdouble
  · intro hdouble
    have hfixed := (squeeze_eq_self_iff _).mpr hdouble
    refine ⟨squeeze (b :: path), hdir, hdouble, ?_⟩
    rw [checkDir_eq (squeeze_ne_nil hne), hfixed]

/-- Three slashes become two, and these one. -/
theorem triple_not_normalised : ¬ Normalised (bytes "///") := by
  intro h
  obtain ⟨str, hstr, hdouble, -⟩ := h
  have hleft : checkDir (bytes "///") = .ok (bytes "//") := by decide
  rw [hleft] at hstr
  cases hstr
  exact hdouble ⟨[], [], by decide⟩

end TrashyServer.Config
