/-
A list cut into blocks of one length, and how that goes on as the list
grows.

`full n s` are the blocks of `s`, `rest n s` what is left behind the
last one. Of a list that arrives in pieces only the rest has to be kept:
the blocks of `s ++ t` are those of `s` and then those of
`rest n s ++ t` (`full_append`). Whoever hands on blocks while the list
arrives is right exactly when what he keeps is the rest.
-/
import Mathlib.Algebra.Order.Group.Nat
import Mathlib.Data.List.Basic

namespace Blocks

universe u

variable {α : Type u} {n : Nat}

/-- The blocks of a list. -/
def full (n : Nat) (s : List α) : List (List α) :=
  (List.range (s.length / n)).map fun k => (s.drop (k * n)).take n

/-- What stands behind the last block. -/
def rest (n : Nat) (s : List α) : List α := s.drop (s.length / n * n)

theorem length_full (s : List α) : (full n s).length = s.length / n := by
  unfold full
  rw [List.length_map, List.length_range]

theorem length_rest (s : List α) : (rest n s).length = s.length % n := by
  unfold rest
  rw [List.length_drop, Nat.mod_eq_sub_div_mul]

/-- A list shorter than a block is all rest. -/
theorem full_of_lt {s : List α} (h : s.length < n) : full n s = [] := by
  unfold full
  rw [Nat.div_eq_of_lt h]
  rfl

theorem rest_of_lt {s : List α} (h : s.length < n) : rest n s = s := by
  unfold rest
  rw [Nat.div_eq_of_lt h, Nat.zero_mul, List.drop_zero]

/-- The first block, and the blocks behind it. -/
theorem full_of_le {s : List α} (hn : 0 < n) (h : n ≤ s.length) :
    full n s = s.take n :: full n (s.drop n) := by
  have hlen : s.length / n = (s.length - n) / n + 1 := by
    rw [Nat.div_eq_sub_div hn h]
  unfold full
  rw [hlen, List.range_succ_eq_map, List.map_cons, Nat.zero_mul,
    List.drop_zero, List.map_map, List.length_drop]
  congr 1
  apply List.map_congr_left
  intro k _
  show (s.drop ((k + 1) * n)).take n = ((s.drop n).drop (k * n)).take n
  rw [List.drop_drop, Nat.succ_mul, Nat.add_comm]

theorem rest_of_le {s : List α} (hn : 0 < n) (h : n ≤ s.length) :
    rest n s = rest n (s.drop n) := by
  have hlen : s.length / n = (s.length - n) / n + 1 := by
    rw [Nat.div_eq_sub_div hn h]
  unfold rest
  rw [hlen, List.length_drop, List.drop_drop, Nat.succ_mul, Nat.add_comm]

/-- Induction over the blocks of a list: a list is shorter than a block,
or a block and a list. -/
theorem block_induction {P : List α → Prop} (hn : 0 < n)
    (short : ∀ s, s.length < n → P s)
    (block : ∀ s, n ≤ s.length → P (s.drop n) → P s) (s : List α) : P s := by
  induction hm : s.length using Nat.strong_induction_on generalizing s with
  | _ m ih =>
      rcases Nat.lt_or_ge s.length n with h | h
      · exact short s h
      · apply block s h
        apply ih (s.drop n).length _ _ rfl
        rw [List.length_drop]
        omega

/-- Growing a list keeps its blocks, and goes on from its rest. -/
theorem full_append (hn : 0 < n) (s t : List α) :
    full n (s ++ t) = full n s ++ full n (rest n s ++ t) := by
  induction s using block_induction hn with
  | short s h => rw [full_of_lt h, rest_of_lt h, List.nil_append]
  | block s h ih =>
      have happ : n ≤ (s ++ t).length := by
        rw [List.length_append]
        omega
      rw [full_of_le hn happ, full_of_le hn h, rest_of_le hn h,
        List.take_append_of_le_length h, List.drop_append_of_le_length h, ih]
      rfl

/-- The blocks and the rest are the list. -/
theorem flatten_append_rest (hn : 0 < n) (s : List α) :
    (full n s).flatten ++ rest n s = s := by
  induction s using block_induction hn with
  | short s h =>
      rw [full_of_lt h, rest_of_lt h, List.flatten_nil, List.nil_append]
  | block s h ih =>
      rw [full_of_le hn h, rest_of_le hn h, List.flatten_cons,
        List.append_assoc, ih, List.take_append_drop]

end Blocks
