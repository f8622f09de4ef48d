/-
When a page stays in `buff_`.

Every call of `read` may store `MAXLINE` bytes behind the `sum_n` there
are, and whether the array is full is asked afterwards. The loop stops
at the first sum that is not below `MAXLINE`, so the one thing it can do
wrong is to step over that size (`sumLoop_le_iff`): a short read and
then a long one, of a file that is larger than the array.

The loop of `Deliver`, which keeps the bytes and stops with a fault,
does so at the same calls (`readPage_ok_iff`).
-/
import Mathlib.Algebra.Order.BigOperators.Group.List
import Mathlib.Algebra.Order.Ring.Int
import TrashyServer.Server.Proofs.Deliver

namespace TrashyServer.Server

-- ================================================================ the sums

/-- The results the loop adds up: those before the end of the file or an
error. -/
def counts (results : List Int) : List Int := results.takeWhile (0 < ·)

/-- The results add up to `MAXLINE` at most, or to `MAXLINE` at one of
the calls. -/
def Meets (sumN : Int) (results : List Int) : Prop :=
  sumN + (counts results).sum ≤ maxline
    ∨ ∃ front, front <+: counts results ∧ sumN + front.sum = maxline

/-- A call that stores nothing. -/
theorem meets_of_not {sumN n : Int} (hn : ¬ 0 < n) (results : List Int)
    (hsum : sumN ≤ maxline) : Meets sumN (n :: results) := by
  have hnone : counts (n :: results) = [] :=
    List.takeWhile_cons_of_neg (by simpa using hn)
  left
  rw [hnone, List.sum_nil]
  omega

/-- The results behind the end or an error are not added. -/
theorem counts_pos (results : List Int) : ∀ n ∈ counts results, 0 < n := by
  intro n hn
  have hpos := List.mem_takeWhile_imp hn
  simpa using hpos

/-- Results that are added up are at least none. -/
theorem sum_nonneg {ns : List Int} (h : ∀ n ∈ ns, 0 < n) : 0 ≤ ns.sum :=
  List.sum_nonneg fun n hn => Int.le_of_lt (h n hn)

/-- A call that stores something: what follows it meets the size from
there on. -/
theorem meets_of_pos {sumN n : Int} (hn : 0 < n) (results : List Int)
    (hsum : sumN < maxline) :
    Meets sumN (n :: results) ↔ Meets (sumN + n) results := by
  have hcons : counts (n :: results) = n :: counts results :=
    List.takeWhile_cons_of_pos (by simpa using hn)
  unfold Meets
  rw [hcons, List.sum_cons, Int.add_assoc]
  apply or_congr_right
  constructor
  · intro h
    obtain ⟨front, hfront, heq⟩ := h
    cases front with
    | nil =>
        rw [List.sum_nil] at heq
        omega
    | cons m front =>
        obtain ⟨rfl, hrest⟩ := List.cons_prefix_cons.mp hfront
        rw [List.sum_cons, ← Int.add_assoc] at heq
        exact ⟨front, hrest, heq⟩
  · intro h
    obtain ⟨front, hfront, heq⟩ := h
    refine ⟨n :: front, List.cons_prefix_cons.mpr ⟨rfl, hfront⟩, ?_⟩
    rw [List.sum_cons, ← Int.add_assoc]
    exact heq

/-- A sum that is the size, or behind it. -/
theorem meets_iff_of_le {sumN : Int} (results : List Int)
    (hsum : maxline ≤ sumN) : Meets sumN results ↔ sumN ≤ maxline := by
  constructor
  · intro h
    rcases h with hall | ⟨front, hfront, heq⟩
    · have := sum_nonneg (counts_pos results)
      omega
    · have hpos : ∀ n ∈ front, 0 < n := fun n hn =>
        counts_pos results n (hfront.subset hn)
      have := sum_nonneg hpos
      omega
  · intro h
    refine Or.inr ⟨[], List.nil_prefix, ?_⟩
    rw [List.sum_nil]
    omega

/-- The loop stays in the array exactly when it does not step over its
size. -/
theorem sumLoop_le_iff (results : List Int) :
    ∀ {sumN : Int}, sumN < maxline →
      ((∀ sum ∈ sumLoop sumN results, sum ≤ maxline)
        ↔ Meets sumN results) := by
  induction results with
  | nil =>
      intro sumN h
      refine iff_of_true (fun sum hsum => nomatch hsum) (Or.inl ?_)
      show sumN + 0 ≤ maxline
      omega
  | cons n results ih =>
      intro sumN h
      unfold sumLoop
      by_cases hn : 0 < n
      · rw [if_pos hn, meets_of_pos hn results h]
        by_cases hfull : maxline ≤ sumN + n
        · rw [if_pos hfull, List.forall_mem_singleton,
            meets_iff_of_le results hfull]
        · rw [if_neg hfull, List.forall_mem_cons, ih (by omega)]
          exact and_iff_right (by omega)
      · rw [if_neg hn, List.forall_mem_singleton]
        exact iff_of_true (by omega) (meets_of_not hn results (by omega))

-- ===================================================== the loop with bytes

/-- The loop that keeps the bytes stops with a fault at the call that
leaves the array. -/
theorem pageLoop_ok_iff {pieces : List Str} (hne : ∀ d ∈ pieces, d ≠ []) :
    ∀ {buff : Str}, buff.length < maxline →
      ((∃ page, pageLoop buff pieces = .ok page)
        ↔ ∀ sum ∈ sumLoop buff.length (pieces.map fun d => (d.length : Int)),
            sum ≤ maxline) := by
  induction pieces with
  | nil =>
      intro buff _
      exact iff_of_true ⟨buff, rfl⟩ fun sum hsum => nomatch hsum
  | cons d pieces ih =>
      intro buff h
      obtain ⟨hd, hne⟩ := List.forall_mem_cons.mp hne
      have hpos : 0 < (d.length : Int) :=
        Int.natCast_pos.mpr (List.length_pos_iff.mpr hd)
      have hlen : (buff.length : Int) + (d.length : Int)
          = ((buff ++ d).length : Int) := by
        rw [List.length_append]
        omega
      unfold pageLoop
      rw [List.map_cons, sumLoop, if_pos hpos, hlen, ← List.length_append]
      by_cases hover : maxline < (buff ++ d).length
      · rw [if_pos hover, if_pos (by omega), List.forall_mem_singleton]
        refine iff_of_false ?_ (by omega)
        intro hok
        obtain ⟨page, hpage⟩ := hok
        cases hpage
      · rw [if_neg hover]
        by_cases hfull : maxline ≤ (buff ++ d).length
        · rw [if_pos hfull, if_pos (by omega), List.forall_mem_singleton]
          exact iff_of_true ⟨buff ++ d, rfl⟩ (by omega)
        · rw [if_neg hfull, if_neg (by omega), List.forall_mem_cons,
            ih hne (by omega)]
          exact (and_iff_right (by omega)).symm

/-- The `switch` over the loops that keep the bytes, likewise. -/
theorem readPage_ok_iff (responseStatus : Nat) {file : Str} (r : Reads file) :
    (∃ page, readPage responseStatus r.pieces = .ok page)
      ↔ ∀ sum ∈ readSums responseStatus r.results.values, sum ≤ maxline := by
  have hempty : ([] : Str).length < maxline := Nat.succ_pos _
  have hloop := pageLoop_ok_iff r.nonempty hempty
  unfold readPage readSums
  split
  · exact hloop
  · exact hloop
  · exact hloop
  · exact iff_of_true ⟨[], rfl⟩ fun sum hsum => nomatch hsum

-- ======================================================= the three loops

/-- A loop that reads a page leaves the array or does not, and without one
there is nothing to leave it. -/
theorem readSums_le_iff (responseStatus : Nat) (results : List Int) :
    (∀ sum ∈ readSums responseStatus results, sum ≤ maxline)
      ↔ (Served responseStatus → Meets 0 results) := by
  have hempty : (0 : Int) < maxline := by decide
  by_cases hserved : Served responseStatus
  · have hsums : readSums responseStatus results = sumLoop 0 results := by
      rcases hserved with rfl | rfl | rfl
      · rfl
      · rfl
      · rfl
    rw [hsums, sumLoop_le_iff results hempty]
    exact (imp_iff_right hserved).symm
  · have hnone : readSums responseStatus results = [] := by
      unfold readSums
      split
      · exact absurd (Or.inl rfl) hserved
      · exact absurd (Or.inr (Or.inl rfl)) hserved
      · exact absurd (Or.inr (Or.inr rfl)) hserved
      · rfl
    rw [hnone]
    exact iff_of_true (fun sum hsum => nomatch hsum)
      fun hyes => absurd hyes hserved

/-- A page that stays in its array. -/
theorem readPage_meets_iff (responseStatus : Nat) {file : Str}
    (r : Reads file) :
    (∃ page, readPage responseStatus r.pieces = .ok page)
      ↔ (Served responseStatus → Meets 0 r.results.values) :=
  (readPage_ok_iff responseStatus r).trans
    (readSums_le_iff responseStatus r.results.values)

/-- When a page stays in `buff_`. For every status and whatever the calls
of `read` return: the sum after every call is within the array exactly
when, for a status that a page is read for, the results add up to
`MAXLINE` at most, or to `MAXLINE` at one of the calls. -/
theorem page_in_buff_iff (responseStatus : Nat) (results : Results) :
    (∀ sum ∈ readSums responseStatus results.values, sum ≤ maxline)
      ↔ (Served responseStatus → Meets 0 results.values) :=
  readSums_le_iff responseStatus results.values

/-- One byte, and then as many as asked for: the last of them is stored
behind the array, whatever the page is sent for. -/
theorem short_read_overruns :
    ∃ results : Results, results.values = [1, 102400]
      ∧ ∀ responseStatus, Served responseStatus →
        ∃ sum ∈ readSums responseStatus results.values, maxline < sum := by
  refine ⟨⟨[1, 102400], by decide⟩, rfl, ?_⟩
  intro responseStatus hserved
  have hover : (102401 : Int) ∈ sumLoop 0 [1, 102400] := by decide
  rcases hserved with rfl | rfl | rfl
  · exact ⟨_, hover, by decide⟩
  · exact ⟨_, hover, by decide⟩
  · exact ⟨_, hover, by decide⟩

end TrashyServer.Server
