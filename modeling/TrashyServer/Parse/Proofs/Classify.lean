/-
What a line is, against what `check_line` answers.

# The law

The first CR or LF at or behind the cursor decides (`FirstBreak`): CR LF
completes the line, a CR that is the last byte leaves it open, as no
break at all does, and anything else is bad. `Classified` says that
`check_line` answers so, with the cursor just behind a completed line.

# Where it holds

`check_line` tells CR LF apart from a bare CR by the position of the CR
(it compares the index behind it with `'\n'`, which is 10), takes a LF
behind a CR it has already passed for the end of a line, and looks at no
more bytes than an `int` can count. `Regular` is the condition on the
bytes and the cursor under which none of the three shows
(`checkLine_classified_iff`, for any cursor at all). The cursors an
object can have are those of `cursorAfter`.
-/
import TrashyServer.Parse.Proofs.Scan

namespace TrashyServer.Parse

-- =============================================================== the law

/-- `i` is the first CR or LF at or behind `c`. -/
structure FirstBreak (w : Str) (c i : Nat) : Prop where
  behind : c ≤ i
  inside : i < w.length
  isBreak : isBreak (charAt w i) = true
  first : Plain w c i

/-- The line is completed by the CR at `i` and the LF behind it. -/
def Completed (w : Str) (c i : Nat) : Prop :=
  FirstBreak w c i ∧ charAt w i = cr ∧ charAt w (i + 1) = lf

/-- The line goes on beyond the text. -/
def Unfinished (w : Str) (c : Nat) : Prop :=
  Plain w c w.length
    ∨ ∃ i, FirstBreak w c i ∧ charAt w i = cr ∧ i + 1 = w.length

/-- `check_line` tells the three kinds of line apart, and leaves the
cursor behind a completed one. -/
structure Classified (w : Str) (c : Nat) : Prop where
  ok : (checkLine w c).1 = .lineOk ↔ ∃ i, Completed w c i
  cursor : ∀ i, Completed w c i →
    (checkLine w c).2 = i + 2 ∧ (checkLine w c).2 ≤ w.length
  unfinished : (checkLine w c).1 = .lineOpen ↔ Unfinished w c
  bad : (checkLine w c).1 = .lineBad
    ↔ ¬ (∃ i, Completed w c i) ∧ ¬ Unfinished w c

/-- There is one first break at most. -/
theorem FirstBreak.unique {w : Str} {c i j : Nat} (hi : FirstBreak w c i)
    (hj : FirstBreak w c j) : i = j := by
  rcases Nat.lt_trichotomy i j with h | h | h
  · have hpl := hj.first i hi.behind h
    rw [hi.isBreak] at hpl
    cases hpl
  · exact h
  · have hpl := hi.first j hj.behind h
    rw [hj.isBreak] at hpl
    cases hpl

theorem FirstBreak.not_plain {w : Str} {c i : Nat} (hi : FirstBreak w c i) :
    ¬ Plain w c w.length := fun hpl => by
  have hb := hpl i hi.behind hi.inside
  rw [hi.isBreak] at hb
  cases hb

/-- Given the first break, what is left to ask is the two bytes there. -/
theorem exists_completed_iff {w : Str} {c i : Nat} (hi : FirstBreak w c i) :
    (∃ j, Completed w c j) ↔ charAt w i = cr ∧ charAt w (i + 1) = lf := by
  constructor
  · rintro ⟨j, hj, hbytes⟩
    rw [hi.unique hj]
    exact hbytes
  · intro hbytes
    exact ⟨i, hi, hbytes⟩

theorem unfinished_iff {w : Str} {c i : Nat} (hi : FirstBreak w c i) :
    Unfinished w c ↔ charAt w i = cr ∧ i + 1 = w.length := by
  constructor
  · rintro (hpl | ⟨j, hj, hend⟩)
    · exact absurd hpl hi.not_plain
    · rw [hi.unique hj]
      exact hend
  · intro hend
    exact .inr ⟨i, hi, hend⟩

-- ==================================================== where the law holds

/-- The first break, if there is one, is a CR at the end of the text, a
CR that has an LF behind it exactly when it stands at index 9, or an LF
without a CR before it; unless it ends the text, it is among the bytes
`check_line` looks at. -/
def Regular (w : Str) (c : Nat) : Prop :=
  ∀ i, FirstBreak w c i →
    if charAt w i = cr then
      i + 1 = w.length
        ∨ (i + 1 < seen w ∧ (charAt w (i + 1) = lf ↔ i = 9))
    else i < seen w ∧ ¬ (1 < i ∧ charAt w (i - 1) = cr)

/-- `check_line` looks at no byte behind the text. -/
theorem seen_le {w : Str} (hw : nul ∉ w) : seen w ≤ w.length := by
  have := toInt_le (strlen w)
  rw [strlen_of_nulFree hw] at this
  unfold seen
  rw [strlen_of_nulFree hw]
  omega

/-- A byte that is not the NUL behind the text is in the text. -/
theorem lt_length_of_lf {w : Str} {i : Nat} (h : charAt w i = lf) :
    i < w.length := by
  by_contra hle
  unfold charAt at h
  rw [List.getD_eq_getElem?_getD, List.getElem?_eq_none (Nat.not_lt.mp hle)]
    at h
  cases h

/-- A first break `check_line` does not reach leaves the line open. -/
theorem checkLine_of_unseen {w : Str} {c i : Nat} (hi : FirstBreak w c i)
    (h : seen w ≤ i) : (checkLine w c).1 = .lineOpen := by
  rw [checkLine_of_plain fun j hj hje => hi.first j hj (by omega)]

/-- With the first break known, `Classified` is a comparison of one
answer with the bytes at the break. -/
theorem classified_iff_of_break {w : Str} {c i : Nat} (hi : FirstBreak w c i) :
    Classified w c ↔
      ((checkLine w c).1 = .lineOk
          ↔ charAt w i = cr ∧ charAt w (i + 1) = lf)
        ∧ (charAt w i = cr ∧ charAt w (i + 1) = lf →
            (checkLine w c).2 = i + 2)
        ∧ ((checkLine w c).1 = .lineOpen
          ↔ charAt w i = cr ∧ i + 1 = w.length) := by
  constructor
  · rintro ⟨hok, hcur, hopen, -⟩
    rw [exists_completed_iff hi] at hok
    rw [unfinished_iff hi] at hopen
    exact ⟨hok, fun hbytes => (hcur i ⟨hi, hbytes⟩).1, hopen⟩
  · rintro ⟨hok, hcur, hopen⟩
    rw [← exists_completed_iff hi] at hok
    rw [← unfinished_iff hi] at hopen
    refine ⟨hok, ?_, hopen, ?_⟩
    · rintro j ⟨hj, hbytes⟩
      obtain rfl := hi.unique hj
      have hlt := lt_length_of_lf hbytes.2
      rw [hcur hbytes]
      exact ⟨rfl, hlt⟩
    · rw [← hok, ← hopen]
      cases (checkLine w c).1 <;> simp

/-- At any cursor of a NUL-free text, the law holds of `check_line`
exactly when the text is regular there. -/
theorem checkLine_classified_iff {w : Str} (hw : nul ∉ w) (c : Nat) :
    Classified w c ↔ Regular w c := by
  have hle := seen_le hw
  rcases break_or_plain w c w.length with ⟨i, hci, hiw, hb, hpl⟩ | hpl
  · have hi : FirstBreak w c i := ⟨hci, hiw, hb, hpl⟩
    have hreg : Regular w c ↔ if charAt w i = cr then
        i + 1 = w.length
          ∨ (i + 1 < seen w ∧ (charAt w (i + 1) = lf ↔ i = 9))
        else i < seen w ∧ ¬ (1 < i ∧ charAt w (i - 1) = cr) := by
      constructor
      · intro h
        exact h i hi
      · intro h j hj
        rw [← hi.unique hj]
        exact h
    have hlast : charAt w w.length ≠ lf := fun hlf =>
      Nat.lt_irrefl _ (lt_length_of_lf hlf)
    rw [classified_iff_of_break hi, hreg]
    by_cases hseen : i < seen w
    · rw [checkLine_of_break hci hseen hb hpl]
      unfold verdict
      have h9 : i + 1 = lf.toNat ↔ i = 9 := by
        show i + 1 = 10 ↔ i = 9
        omega
      by_cases hcr : charAt w i = cr
      · simp only [hcr, if_true, true_and, h9]
        by_cases hend : i + 1 = seen w
        · -- the text, as far as it is looked at, ends with this CR
          have hnlt : ¬ i + 1 < seen w := by omega
          simp only [if_pos hend, hnlt, false_and, or_false]
          by_cases hw' : i + 1 = w.length
          · simp [hw', hlast]
          · simp [hw']
        · have hw' : i + 1 ≠ w.length := by omega
          have hlt : i + 1 < seen w := by omega
          simp only [if_neg hend, hw', hlt, true_and, false_or]
          by_cases hi9 : i = 9
          · simp only [if_pos hi9]
            simp [hi9]
          · simp only [if_neg hi9]
            simp [hi9]
      · simp only [hcr, if_false, false_and, iff_false, hseen, true_and]
        by_cases hprev : 1 < i ∧ charAt w (i - 1) = cr
        · simp [hprev]
        · simp [hprev]
    · -- the break stands beyond the bytes looked at
      have hopen := checkLine_of_unseen hi (by omega)
      rw [hopen]
      by_cases hcr : charAt w i = cr
      · by_cases hw' : i + 1 = w.length
        · simp [hcr, hw', hlast]
        · simp [hcr, hw', show ¬ i + 1 < seen w by omega]
      · simp [hcr, hseen]
  · have hnone : ∀ i, ¬ FirstBreak w c i := fun i hi => hi.not_plain hpl
    have hopen : (checkLine w c).1 = .lineOpen := by
      rw [checkLine_of_plain fun j hj hje => hpl j hj (by omega)]
    have hreg : Regular w c := fun i hi => absurd hi (hnone i)
    have hno : ¬ ∃ i, Completed w c i := fun ⟨i, hi, _⟩ => hnone i hi
    refine iff_of_true ⟨?_, ?_, ?_, ?_⟩ hreg
    · simp [hopen, hno]
    · exact fun i hi => absurd hi.1 (hnone i)
    · simp [hopen, Unfinished, hpl]
    · simp [hopen, Unfinished, hpl]

-- ==================================================== the cursors reached

/-- `m_check_cur` after calls of `check_line` on prefixes of `w`, of
these lengths, from a fresh object. -/
def cursorAfter (w : Str) (ns : List Nat) : Nat :=
  ns.foldl (fun cur n => (checkLine (w.take n) cur).2) HttpParse.new.mCheckCur

/-- Whatever prefixes of a NUL-free text an object was called with
before, the next call of `check_line` on the text classifies the line
right exactly when the text is regular at the cursor reached. -/
theorem reached_classified_iff {w : Str} (hw : nul ∉ w) (ns : List Nat) :
    Classified w (cursorAfter w ns) ↔ Regular w (cursorAfter w ns) :=
  checkLine_classified_iff hw _

/-- Called with the first nine bytes and then with a line whose CR is at
index 9. -/
theorem reached_classified_at_nine :
    Classified (bytes "GET /abcd\r\n") (cursorAfter (bytes "GET /abcd\r\n") [9])
      ↔ Regular (bytes "GET /abcd\r\n")
          (cursorAfter (bytes "GET /abcd\r\n") [9]) :=
  reached_classified_iff (by decide) _

/-- A request line completed by CR LF is called bad, on a fresh
object. -/
theorem completed_called_bad :
    ¬ Classified (bytes "GET / HTTP/1.1\r\n")
      (cursorAfter (bytes "GET / HTTP/1.1\r\n") []) := by
  intro h
  have hbreak : Completed (bytes "GET / HTTP/1.1\r\n") 0 14 := by
    refine ⟨⟨by decide, by decide, by decide, fun j _ hj => ?_⟩, by decide,
      by decide⟩
    have hplain : ∀ j < 14,
        isBreak (charAt (bytes "GET / HTTP/1.1\r\n") j) = false := by decide
    exact hplain j hj
  have hok := h.ok.mpr ⟨14, hbreak⟩
  revert hok
  decide

end TrashyServer.Parse
