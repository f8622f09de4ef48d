/-
Searching a list for a sublist and cutting it at each hit.

`find p s` is the position of the first occurrence of `p` in `s`, and
`pieces p s` what stands before the first, second, … occurrence of `p`,
scanning on behind each hit. What stands behind the last hit is not a
piece; a list without a hit has none. The pieces and that rest make up
the list again (`exists_rest`), and the needle is in neither
(`not_infix_of_mem_pieces`).

A needle is met mostly in one of two shapes, and each gets its own
rules: the separator whose first element does not occur in the text
before it (`find_append`, `pieces_append`), and the single element
(`pieces_singleton_length`).
-/
import Mathlib.Data.List.Infix
import Mathlib.Data.List.Count

namespace Search

universe u

variable {α : Type u} [DecidableEq α]

-- ============================================================= finding

/-- The position of the first occurrence of `p`. -/
def find (p : List α) : List α → Option Nat
  | [] => if p.isPrefixOf [] then some 0 else none
  | a :: s => if p.isPrefixOf (a :: s) then some 0 else (find p s).map (· + 1)

/-- An occurrence at the front is the first one. -/
theorem find_of_isPrefix {p s : List α} (h : p <+: s) : find p s = some 0 := by
  cases s with
  | nil => rw [find, if_pos (List.isPrefixOf_iff_prefix.mpr h)]
  | cons a s => rw [find, if_pos (List.isPrefixOf_iff_prefix.mpr h)]

/-- Without an occurrence at the front the search moves on. -/
theorem find_cons {p : List α} {a : α} {s : List α} (h : ¬ p <+: a :: s) :
    find p (a :: s) = (find p s).map (· + 1) := by
  rw [find, if_neg]
  rwa [List.isPrefixOf_iff_prefix]

/-- A hit is an occurrence. -/
theorem find_spec {p : List α} :
    ∀ {s : List α} {i : Nat}, find p s = some i →
      ∃ b, s = s.take i ++ (p ++ b) ∧ i ≤ s.length := by
  intro s
  induction s with
  | nil =>
      intro i h
      by_cases hp : p <+: []
      · rw [find_of_isPrefix hp, Option.some.injEq] at h
        subst h
        exact ⟨[], by simp [List.prefix_nil.mp hp], Nat.le_refl _⟩
      · rw [find, if_neg (by rwa [List.isPrefixOf_iff_prefix])] at h
        cases h
  | cons a s ih =>
      intro i h
      by_cases hp : p <+: a :: s
      · rw [find_of_isPrefix hp, Option.some.injEq] at h
        subst h
        obtain ⟨b, hb⟩ := hp
        exact ⟨b, by rw [hb]; rfl, Nat.zero_le _⟩
      · rw [find_cons hp] at h
        obtain ⟨j, hj, rfl⟩ := Option.map_eq_some_iff.mp h
        obtain ⟨b, hb, hle⟩ := ih hj
        refine ⟨b, ?_, Nat.succ_le_succ hle⟩
        rw [List.take_succ_cons, List.cons_append, ← hb]

/-- A hit leaves room for the needle. -/
theorem find_add_length_le {p s : List α} {i : Nat} (h : find p s = some i) :
    i + p.length ≤ s.length := by
  obtain ⟨b, hb, hle⟩ := find_spec h
  have := congrArg List.length hb
  rw [List.length_append, List.length_append, List.length_take] at this
  omega

/-- The search fails exactly when the needle does not occur. -/
theorem find_eq_none_iff {p s : List α} : find p s = none ↔ ¬ p <:+: s := by
  induction s with
  | nil =>
      by_cases hp : p <+: []
      · rw [find_of_isPrefix hp]
        simp [hp.isInfix]
      · rw [find, if_neg (by rwa [List.isPrefixOf_iff_prefix])]
        simpa using hp
  | cons a s ih =>
      rw [List.infix_cons_iff]
      by_cases hp : p <+: a :: s
      · rw [find_of_isPrefix hp]
        simp [hp]
      · rw [find_cons hp, Option.map_eq_none_iff, ih]
        simp [hp]

omit [DecidableEq α] in
/-- No occurrence reaches across an element the needle does not have. -/
theorem infix_append_cons_iff {p : List α} {c : α} (hc : c ∉ p) (hp : p ≠ [])
    {a b : List α} : p <:+: a ++ c :: b ↔ p <:+: a ∨ p <:+: b := by
  have hfront : ∀ {a : List α}, p <+: a ++ c :: b → p <+: a := by
    intro a h
    by_cases hlen : p.length ≤ a.length
    · exact List.prefix_of_prefix_length_le h (List.prefix_append ..) hlen
    · have hac : a ++ [c] <+: a ++ c :: b := ⟨b, by simp⟩
      have hcp : a ++ [c] <+: p :=
        List.prefix_of_prefix_length_le hac h (by simp; omega)
      exact absurd (hcp.subset (by simp)) hc
  induction a with
  | nil =>
      rw [List.nil_append, List.infix_cons_iff]
      have hnil : ¬ p <:+: [] := fun h => hp (List.infix_nil.mp h)
      have hcons : ¬ p <+: c :: b := fun h =>
        hp (List.prefix_nil.mp (hfront (a := []) h))
      simp [hnil, hcons]
  | cons x a ih =>
      have hx : p <+: x :: (a ++ c :: b) ↔ p <+: x :: a :=
        ⟨fun h => hfront (a := x :: a) h,
          fun h => h.trans (List.prefix_append (x :: a) (c :: b))⟩
      rw [List.cons_append, List.infix_cons_iff, List.infix_cons_iff, hx,
        or_assoc]
      exact or_congr_right ih

omit [DecidableEq α] in
/-- No occurrence starts in a text without the needle's first element. -/
theorem infix_append_iff {x : α} {q a : List α} (hx : x ∉ a) (b : List α) :
    x :: q <:+: a ++ b ↔ x :: q <:+: b := by
  induction a with
  | nil => exact Iff.rfl
  | cons y a ih =>
      rw [List.mem_cons, not_or] at hx
      have hcons : ¬ x :: q <+: y :: (a ++ b) := fun h =>
        hx.1 (List.cons_prefix_cons.mp h).1
      rw [List.cons_append, List.infix_cons_iff]
      exact (or_iff_right hcons).trans (ih hx.2)

theorem exists_find {p s : List α} (h : p <:+: s) : ∃ i, find p s = some i := by
  cases hf : find p s with
  | some i => exact ⟨i, rfl⟩
  | none => exact absurd h (find_eq_none_iff.mp hf)

/-- No occurrence stands before the hit. -/
theorem find_le (p a b : List α) :
    ∃ i, find p (a ++ (p ++ b)) = some i ∧ i ≤ a.length := by
  induction a with
  | nil => exact ⟨0, find_of_isPrefix (List.prefix_append ..), Nat.le_refl _⟩
  | cons x a ih =>
      by_cases hp : p <+: x :: (a ++ (p ++ b))
      · exact ⟨0, find_of_isPrefix hp, Nat.zero_le _⟩
      · obtain ⟨i, hi, hle⟩ := ih
        refine ⟨i + 1, ?_, Nat.succ_le_succ hle⟩
        rw [List.cons_append, find_cons hp, hi]
        rfl

/-- Behind a text free of the needle's first element, the needle is
found where it stands. -/
theorem find_append {x : α} {q a : List α} (b : List α) (hx : x ∉ a) :
    find (x :: q) (a ++ (x :: q ++ b)) = some a.length := by
  induction a with
  | nil => exact find_of_isPrefix (List.prefix_append ..)
  | cons y a ih =>
      have hne : ¬ x :: q <+: y :: (a ++ (x :: q ++ b)) := by
        intro h
        exact hx ((List.cons_prefix_cons.mp h).1 ▸ List.mem_cons_self ..)
      rw [List.cons_append, find_cons hne,
        ih fun h => hx (List.mem_cons_of_mem _ h)]
      rfl

-- ====================================================== the last occurrence

omit [DecidableEq α] in
/-- There is one last occurrence. -/
theorem last_unique {p a a' b b' : List α}
    (heq : a ++ (p ++ b) = a' ++ (p ++ b'))
    (h : ¬ p <:+: (p ++ b).drop 1) (h' : ¬ p <:+: (p ++ b').drop 1) :
    a = a' ∧ p ++ b = p ++ b' := by
  have hshift : ∀ {c b b' : List α}, p ++ b = c ++ (p ++ b') →
      ¬ p <:+: (p ++ b).drop 1 → c = [] := by
    intro c b b' heq h
    cases c with
    | nil => rfl
    | cons x c =>
        refine absurd ?_ h
        rw [heq]
        exact ⟨c, b', List.append_assoc ..⟩
  rcases List.append_eq_append_iff.mp heq with ⟨c, ha, hb⟩ | ⟨c, ha, hb⟩
  · obtain rfl := hshift hb h
    exact ⟨(ha.trans (List.append_nil a)).symm, hb⟩
  · obtain rfl := hshift hb h'
    exact ⟨ha.trans (List.append_nil a'), hb.symm⟩

/-- Searching backwards finds the last occurrence. -/
theorem find_reverse {p s : List α} (hp : p ≠ []) {j : Nat}
    (h : find p.reverse s.reverse = some j) :
    ∃ a b, s = a ++ (p ++ b) ∧ b.length = j
      ∧ ¬ p <:+: (p ++ b).drop 1 := by
  obtain ⟨c, hc, hle⟩ := find_spec h
  have hlen : (s.reverse.take j).length = j := List.length_take_of_le hle
  have hs : s = c.reverse ++ (p ++ (s.reverse.take j).reverse) := by
    have hrev := congrArg List.reverse hc
    rw [List.reverse_reverse] at hrev
    refine hrev.trans ?_
    simp
  refine ⟨c.reverse, (s.reverse.take j).reverse, hs, ?_, ?_⟩
  · rw [List.length_reverse, hlen]
  · intro hlater
    generalize hb : (s.reverse.take j).reverse = b at hs hlater
    have hblen : b.length = j := by rw [← hb, List.length_reverse, hlen]
    obtain ⟨x, p', rfl⟩ := List.exists_cons_of_ne_nil hp
    obtain ⟨u, v, huv⟩ := hlater
    have hrest : p' ++ b = u ++ (x :: p') ++ v := huv.symm
    have hsv : s.reverse = v.reverse
        ++ ((x :: p').reverse ++ (u.reverse ++ (x :: c.reverse.reverse))) := by
      rw [hs, List.cons_append, hrest]
      simp
    obtain ⟨i, hi, hiv⟩ := find_le (x :: p').reverse v.reverse
      (u.reverse ++ (x :: c.reverse.reverse))
    rw [hsv, hi] at h
    obtain rfl := Option.some.inj h
    have := congrArg List.length hrest
    simp only [List.length_append, List.length_cons] at this
    rw [List.length_reverse] at hiv
    omega

/-- A needle that occurs has a last occurrence. -/
theorem exists_last {p s : List α} (hp : p ≠ []) (h : p <:+: s) :
    ∃ a b, s = a ++ (p ++ b) ∧ ¬ p <:+: (p ++ b).drop 1 := by
  obtain ⟨j, hj⟩ := exists_find (List.reverse_infix.mpr h)
  obtain ⟨a, b, hab, -, hlast⟩ := find_reverse hp hj
  exact ⟨a, b, hab, hlast⟩

-- ============================================================= cutting

/-- The pieces that end at an occurrence of `p`, scanning left to right
and on behind each hit. -/
def pieces (p s : List α) : List (List α) :=
  match _h : find p s with
  | none => []
  | some i =>
      if _hp : p = [] then []
      else s.take i :: pieces p (s.drop (i + p.length))
termination_by s.length
decreasing_by
  have := find_add_length_le _h
  have := List.length_pos_iff.mpr _hp
  rw [List.length_drop]
  omega

theorem pieces_of_none {p s : List α} (h : find p s = none) :
    pieces p s = [] := by
  rw [pieces]
  split
  · rfl
  · next i hi => rw [h] at hi; cases hi

theorem pieces_of_some {p s : List α} {i : Nat} (hp : p ≠ [])
    (h : find p s = some i) :
    pieces p s = s.take i :: pieces p (s.drop (i + p.length)) := by
  rw [pieces]
  split
  · next hn => rw [h] at hn; cases hn
  · next j hj =>
    rw [h, Option.some.injEq] at hj
    subst hj
    rw [dif_neg hp]

/-- No occurrence fits in front of the first one. -/
theorem not_infix_take {p s : List α} {i : Nat} (hp : p ≠ [])
    (h : find p s = some i) : ¬ p <:+: s.take i := by
  rintro ⟨a, b, hab⟩
  have hs : s = a ++ (p ++ (b ++ s.drop i)) := by
    conv => lhs; rw [← List.take_append_drop i s, ← hab]
    simp
  obtain ⟨j, hj, hle⟩ := find_le p a (b ++ s.drop i)
  rw [← hs, h, Option.some.injEq] at hj
  have hlen := congrArg List.length hab
  have hpos := List.length_pos_iff.mpr hp
  rw [List.length_append, List.length_append, List.length_take] at hlen
  omega

/-- The needle occurs in no piece. -/
theorem not_infix_of_mem_pieces {p : List α} (hp : p ≠ []) {s : List α} :
    ∀ l ∈ pieces p s, ¬ p <:+: l := by
  induction s using pieces.induct p with
  | case1 s h =>
      intro l hl
      rw [pieces_of_none h] at hl
      cases hl
  | case2 s i h hnil => exact absurd hnil hp
  | case3 s i h _ ih =>
      intro l hl
      rw [pieces_of_some hp h] at hl
      rcases List.mem_cons.mp hl with rfl | hl
      · exact not_infix_take hp h
      · exact ih l hl

/-- The pieces, each with the needle behind it, and a rest without the
needle are the text. -/
theorem exists_rest {p : List α} (hp : p ≠ []) (s : List α) :
    ∃ r, s = (pieces p s).flatMap (· ++ p) ++ r ∧ ¬ p <:+: r := by
  induction s using pieces.induct p with
  | case1 s h =>
      refine ⟨s, ?_, find_eq_none_iff.mp h⟩
      rw [pieces_of_none h]
      rfl
  | case2 s i h hnil => exact absurd hnil hp
  | case3 s i h _ ih =>
      obtain ⟨r, hr, hfree⟩ := ih
      obtain ⟨b, hb, hle⟩ := find_spec h
      have hdrop : s.drop (i + p.length) = b := by
        rw [hb, ← List.append_assoc]
        apply List.drop_left'
        rw [List.length_append, List.length_take_of_le hle]
      refine ⟨r, ?_, hfree⟩
      rw [pieces_of_some hp h, List.flatMap_cons, List.append_assoc, ← hr,
        hdrop, List.append_assoc]
      exact hb

/-- The occurrences met from left to right when none may overlap: each
is passed over as a whole, `skip` elements of the last one still to
come. -/
def hitsFrom (p : List α) : Nat → List α → Nat
  | _, [] => 0
  | 0, a :: s =>
      if p.isPrefixOf (a :: s) then hitsFrom p (p.length - 1) s + 1
      else hitsFrom p 0 s
  | skip + 1, _ :: s => hitsFrom p skip s

/-- The number of these in a text. -/
def hits (p s : List α) : Nat := hitsFrom p 0 s

theorem hitsFrom_eq (p : List α) :
    ∀ (skip : Nat) (s : List α), hitsFrom p skip s = hits p (s.drop skip) := by
  intro skip
  induction skip with
  | zero =>
      intro s
      rw [List.drop_zero]
      rfl
  | succ skip ih =>
      intro s
      cases s with
      | nil => rfl
      | cons a s => exact ih s

/-- The count goes on behind the first occurrence, -/
theorem hits_of_some {p : List α} (hp : p ≠ []) :
    ∀ {s : List α} {i : Nat}, find p s = some i →
      hits p s = hits p (s.drop (i + p.length)) + 1 := by
  have hpos := List.length_pos_iff.mpr hp
  intro s
  induction s with
  | nil =>
      intro i h
      have hroom := find_add_length_le h
      rw [List.length_nil] at hroom
      omega
  | cons a s ih =>
      intro i h
      by_cases hfront : p <+: a :: s
      · rw [find_of_isPrefix hfront, Option.some.injEq] at h
        subst h
        have hlen : 0 + p.length = p.length - 1 + 1 := by omega
        rw [hits, hitsFrom, if_pos (List.isPrefixOf_iff_prefix.mpr hfront),
          hitsFrom_eq, hlen, List.drop_succ_cons]
      · rw [find_cons hfront] at h
        obtain ⟨j, hj, rfl⟩ := Option.map_eq_some_iff.mp h
        have hlen : j + 1 + p.length = j + p.length + 1 := by omega
        rw [hits, hitsFrom, if_neg (mt List.isPrefixOf_iff_prefix.mp hfront),
          hlen, List.drop_succ_cons]
        exact ih hj

/-- and ends where there is none. -/
theorem hits_of_none {p : List α} :
    ∀ {s : List α}, find p s = none → hits p s = 0 := by
  intro s
  induction s with
  | nil =>
      intro _
      rfl
  | cons a s ih =>
      intro h
      have hinfix := find_eq_none_iff.mp h
      rw [List.infix_cons_iff, not_or] at hinfix
      rw [hits, hitsFrom, if_neg (mt List.isPrefixOf_iff_prefix.mp hinfix.1)]
      exact ih (find_eq_none_iff.mpr hinfix.2)

/-- There are as many pieces as occurrences. -/
theorem length_pieces {p : List α} (hp : p ≠ []) (s : List α) :
    (pieces p s).length = hits p s := by
  induction s using pieces.induct p with
  | case1 s h => rw [pieces_of_none h, hits_of_none h, List.length_nil]
  | case2 s i h hnil => exact absurd hnil hp
  | case3 s i h _ ih =>
      rw [pieces_of_some hp h, hits_of_some hp h, List.length_cons, ih]

/-- The text before a separator is a piece, and the rest is cut on its
own. -/
theorem pieces_append {x : α} {q a : List α} (b : List α) (hx : x ∉ a) :
    pieces (x :: q) (a ++ (x :: q ++ b)) = a :: pieces (x :: q) b := by
  rw [pieces_of_some (List.cons_ne_nil x q) (find_append b hx), List.take_left,
    ← List.append_assoc, ← List.length_append, List.drop_left]

/-- Pieces are made of the text's own elements. -/
theorem mem_of_mem_pieces {p : List α} :
    ∀ {s l : List α}, l ∈ pieces p s → ∀ y ∈ l, y ∈ s := by
  intro s
  induction s using pieces.induct p with
  | case1 s h =>
      intro l hl
      rw [pieces_of_none h] at hl
      cases hl
  | case2 s i h hp =>
      intro l hl
      rw [pieces] at hl
      simp [hp] at hl
      split at hl <;> cases hl
  | case3 s i h hp ih =>
      intro l hl y hy
      rw [pieces_of_some hp h] at hl
      rcases List.mem_cons.mp hl with rfl | hl
      · exact List.mem_of_mem_take hy
      · exact List.mem_of_mem_drop (ih hl y hy)

/-- Occurrences of a single element never overlap. -/
theorem hits_singleton (x : α) (s : List α) : hits [x] s = s.count x := by
  induction s with
  | nil => rfl
  | cons a s ih =>
      unfold hits at ih
      rw [hits, hitsFrom, List.length_singleton, Nat.sub_self, ih]
      by_cases h : a = x
      · rw [h, List.count_cons_self, if_pos (by simp)]
      · rw [List.count_cons_of_ne h, if_neg (by simpa using Ne.symm h)]

/-- Cutting at a single element makes as many pieces as it occurs. -/
theorem pieces_singleton_length (x : α) (s : List α) :
    (pieces [x] s).length = s.count x := by
  rw [length_pieces (List.cons_ne_nil x []), hits_singleton]

end Search
