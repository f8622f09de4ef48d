/-
Cut points: a list of positions, each at least `g` behind the one
before.

A scanner that hands out a piece of its input whenever its cursor has
moved on leaves such a list behind, one cut at each end of a piece. The
list grows at its end (`Cuts.snoc`); how far the last cut is from the
first bounds the number of pieces (`Cuts.mul_length_le`); and between
these two every position is in exactly one piece (`Cuts.piece`).
-/
import Mathlib.Data.List.Chain
import Mathlib.Logic.ExistsUnique

namespace Tiles

-- ============================================================== the cuts

/-- Positions at least `g` apart, in ascending order. -/
def Cuts (g : Nat) (l : List Nat) : Prop :=
  l.IsChain fun a b => a + g ≤ b

instance (g : Nat) (l : List Nat) : Decidable (Cuts g l) := by
  unfold Cuts
  infer_instance

/-- The pieces between neighbouring cuts. -/
def pieces (l : List Nat) : List (Nat × Nat) := l.zip l.tail

variable {g : Nat} {l : List Nat} {a b : Nat}

theorem Cuts.singleton (g a : Nat) : Cuts g [a] := List.isChain_singleton a

/-- One more cut behind the last one. -/
theorem Cuts.snoc (h : Cuts g (l ++ [a])) (hab : a + g ≤ b) :
    Cuts g (l ++ [a] ++ [b]) := by
  unfold Cuts
  rw [List.append_assoc]
  exact List.isChain_split.mpr ⟨h, List.isChain_pair.mpr hab⟩

/-- The cuts behind the first one, and how far off the next one is. -/
theorem cuts_cons_cons :
    Cuts g (a :: b :: l) ↔ a + g ≤ b ∧ Cuts g (b :: l) :=
  List.isChain_cons_cons

/-- Every piece takes its `g` positions. -/
theorem Cuts.mul_length_le (h : Cuts g (a :: l ++ [b])) :
    a + g * (l.length + 1) ≤ b := by
  induction l generalizing a with
  | nil =>
      have := (cuts_cons_cons.mp h).1
      simpa using this
  | cons c l ih =>
      obtain ⟨hac, hcl⟩ := cuts_cons_cons.mp h
      have := ih hcl
      rw [List.length_cons, Nat.mul_succ]
      omega

/-- The first cut is the least one. -/
theorem Cuts.head_le (h : Cuts g (a :: l)) : ∀ x ∈ l, a + g ≤ x := by
  induction l generalizing a with
  | nil =>
      intro x hx
      cases hx
  | cons c l ih =>
      obtain ⟨hac, hcl⟩ := cuts_cons_cons.mp h
      intro x hx
      rcases List.mem_cons.mp hx with rfl | hx
      · exact hac
      · have := ih hcl x hx
        omega

/-- No cut stands twice. -/
theorem Cuts.nodup (hg : 0 < g) (h : Cuts g l) : l.Nodup := by
  induction l with
  | nil => exact List.nodup_nil
  | cons c l ih =>
      refine List.nodup_cons.mpr ⟨fun hc => ?_, ih h.tail⟩
      have := h.head_le c hc
      omega

-- ============================================================ the pieces

/-- A piece starts no earlier than the first cut. -/
theorem Cuts.le_of_mem_pieces (h : Cuts g (a :: l)) {p : Nat × Nat}
    (hp : p ∈ pieces (a :: l)) : a ≤ p.1 := by
  have hmem := (List.of_mem_zip (a := p.1) (b := p.2) hp).1
  rcases List.mem_cons.mp hmem with heq | hl
  · exact Nat.le_of_eq heq.symm
  · have := h.head_le _ hl
    omega

/-- Between the first cut and the last, every position is in exactly
one piece. -/
theorem Cuts.piece (h : Cuts g (a :: l ++ [b])) {i : Nat} (ha : a ≤ i)
    (hb : i < b) :
    ∃! p, p ∈ pieces (a :: l ++ [b]) ∧ p.1 ≤ i ∧ i < p.2 := by
  induction l generalizing a with
  | nil =>
      refine ⟨(a, b), ⟨List.mem_singleton_self _, ha, hb⟩, ?_⟩
      rintro p ⟨hp, -⟩
      exact List.mem_singleton.mp hp
  | cons c l ih =>
      obtain ⟨hac, hcl⟩ := cuts_cons_cons.mp h
      have hpieces : pieces (a :: c :: l ++ [b])
          = (a, c) :: pieces (c :: l ++ [b]) := rfl
      rw [hpieces]
      by_cases hi : i < c
      · -- in the first piece, and before all others
        refine ⟨(a, c), ⟨List.mem_cons_self .., ha, hi⟩, ?_⟩
        rintro p ⟨hp, hpi, -⟩
        rcases List.mem_cons.mp hp with rfl | hp
        · rfl
        · have := Cuts.le_of_mem_pieces hcl hp
          omega
      · obtain ⟨p, ⟨hp, hpi⟩, hone⟩ := ih hcl (by omega)
        refine ⟨p, ⟨List.mem_cons_of_mem _ hp, hpi⟩, ?_⟩
        rintro q ⟨hq, hqi⟩
        rcases List.mem_cons.mp hq with rfl | hq
        · exact absurd hqi.2 hi
        · exact hone q ⟨hq, hqi⟩

end Tiles
