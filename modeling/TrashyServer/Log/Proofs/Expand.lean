/-
When the arguments of a log call are data.

`expand` replaces a directive and goes on two characters behind where
the directive stood, in the text that now holds the argument. So it is
at its place again only if what it then reads, the argument from its
third character on and the literal text behind, leads it to the next
directive and to no other.

# The next directive

`seek` is where the loop, reading on, sees its next directive: up to
there it changes nothing (`expand_seek`), and without one it ends
(`expand_of_none`). A format is literal text and slots, a slot being a
directive, its argument and the literal text behind it (`Format`). The
loop is at its place for a slot when `seek` leads from its index to
exactly where the slot stands (`AtPlace`).

# One slot

From its place the loop fills the slot, and is at its place for the next
one exactly when the filled slot can be read over (`atPlace_next_iff`).
Otherwise it takes its next argument elsewhere, or none, and `taken`
tells (`expand_astray`). Induction over the slots gives
`expand_iff`.
-/
import TrashyServer.Log.Model

namespace TrashyServer.Log

-- ========================================================= the characters

@[simp]
theorem letterD_ne_letterS : letterD ≠ letterS := by decide

@[simp]
theorem letterD_ne_percent : letterD ≠ percent := by decide

/-- A percent sign takes no argument, -/
@[simp]
theorem percent_not_letter : ¬ (percent = letterS ∨ percent = letterD) := by
  decide

/-- and neither does the NUL behind a text. -/
theorem nul_not_letter : nul ≠ letterS ∧ nul ≠ letterD := by decide

-- =================================================== the next directive

/-- Where the loop sees a directive that takes an argument. -/
def seek : Str → Option Nat
  | [] => none
  | [_] => none
  | c :: d :: w =>
      if c ≠ percent then (seek (d :: w)).map (· + 1)
      else if d = letterS ∨ d = letterD then some 0
      else (seek w).map (· + 2)

theorem seek_of_ne {c : UInt8} (h : c ≠ percent) (w : Str) :
    seek (c :: w) = (seek w).map (· + 1) := by
  cases w with
  | nil => rfl
  | cons d w => rw [seek, if_pos h]

theorem getD_of_drop {s w : Str} {i : Nat} {c : UInt8}
    (h : s.drop i = c :: w) : i < s.length ∧ s.getD i nul = c
      ∧ s.drop (i + 1) = w := by
  have hi : i < s.length := by
    by_contra hle
    rw [List.drop_of_length_le (by omega)] at h
    cases h
  rw [List.drop_eq_getElem_cons hi] at h
  obtain ⟨hc, hw⟩ := List.cons.inj h
  refine ⟨hi, ?_, hw⟩
  rw [List.getD_eq_getElem?_getD, List.getElem?_eq_getElem hi,
    Option.getD_some, hc]

/-- A character that is no percent sign is passed over, -/
theorem expand_of_ne {s : Str} {i : Nat} (hi : i < s.length)
    (h : s.getD i nul ≠ percent) (args : List Arg) (taken : List (Str × Nat)) :
    expand s i args taken = expand s (i + 1) args taken := by
  rw [expand.eq_def, if_pos hi, if_pos h]

/-- and so is a percent sign with a character behind it that takes no
argument. -/
theorem expand_of_percent {s : Str} {i : Nat} (hi : i < s.length)
    (h : s.getD i nul = percent)
    (hs : s.getD (i + 1) nul ≠ letterS) (hd : s.getD (i + 1) nul ≠ letterD)
    (args : List Arg) (taken : List (Str × Nat)) :
    expand s i args taken = expand s (i + 2) args taken := by
  rw [expand.eq_def, if_pos hi, if_neg (not_not.mpr h), if_neg hs,
    if_neg hd, ite_self]

theorem expand_of_le {s : Str} {i : Nat} (hi : s.length ≤ i)
    (args : List Arg) (taken : List (Str × Nat)) :
    expand s i args taken = .ok ⟨s, args, taken⟩ := by
  rw [expand.eq_def, if_neg (Nat.not_lt.mpr hi)]

/-- Without a directive in sight the loop ends with what it has. -/
theorem expand_of_none {s : Str} (args : List Arg)
    (taken : List (Str × Nat)) {w : Str} :
    ∀ {i : Nat}, s.drop i = w → seek w = none →
      expand s i args taken = .ok ⟨s, args, taken⟩ := by
  fun_induction seek w with
  | case1 =>
      intro i hw _
      exact expand_of_le (List.drop_eq_nil_iff.mp hw) args taken
  | case2 c =>
      intro i hw _
      obtain ⟨hi, hc, hnil⟩ := getD_of_drop hw
      have hend := List.drop_eq_nil_iff.mp hnil
      by_cases hper : c = percent
      · have hnul : s.getD (i + 1) nul = nul := by
          rw [List.getD_eq_getElem?_getD, List.getElem?_eq_none hend]
          rfl
        rw [expand_of_percent hi (hc.trans hper)
          (hnul.trans_ne nul_not_letter.1) (hnul.trans_ne nul_not_letter.2)]
        exact expand_of_le (by omega) args taken
      · rw [expand_of_ne hi (by rwa [hc])]
        exact expand_of_le hend args taken
  | case3 c d w hne ih =>
      intro i hw h
      obtain ⟨hi, hc, hrest⟩ := getD_of_drop hw
      rw [expand_of_ne hi (by rwa [hc])]
      exact ih hrest (Option.map_eq_none_iff.mp h)
  | case4 c d w _ _ =>
      intro i _ h
      cases h
  | case5 c d w hper hno ih =>
      intro i hw h
      obtain ⟨hi, hc, hrest⟩ := getD_of_drop hw
      obtain ⟨-, hd, hrest'⟩ := getD_of_drop hrest
      rw [not_or] at hno
      rw [expand_of_percent hi (hc.trans (not_not.mp hper))
        (hd.trans_ne hno.1) (hd.trans_ne hno.2)]
      exact ih hrest' (Option.map_eq_none_iff.mp h)

/-- Up to the directive in sight the loop changes nothing. -/
theorem expand_seek {s : Str} (args : List Arg) (taken : List (Str × Nat))
    {w : Str} :
    ∀ {i j : Nat}, s.drop i = w → seek w = some j →
      expand s i args taken = expand s (i + j) args taken := by
  fun_induction seek w with
  | case1 =>
      intro i j _ h
      cases h
  | case2 c =>
      intro i j _ h
      cases h
  | case3 c d w hne ih =>
      intro i j hw h
      obtain ⟨hi, hc, hrest⟩ := getD_of_drop hw
      obtain ⟨k, hk, rfl⟩ := Option.map_eq_some_iff.mp h
      rw [expand_of_ne hi (by rwa [hc]), ih hrest hk]
      congr 1
      omega
  | case4 c d w _ _ =>
      intro i j _ h
      obtain rfl := Option.some.inj h
      rfl
  | case5 c d w hper hno ih =>
      intro i j hw h
      obtain ⟨hi, hc, hrest⟩ := getD_of_drop hw
      obtain ⟨-, hd, hrest'⟩ := getD_of_drop hrest
      obtain ⟨k, hk, rfl⟩ := Option.map_eq_some_iff.mp h
      rw [not_or] at hno
      rw [expand_of_percent hi (hc.trans (not_not.mp hper))
        (hd.trans_ne hno.1) (hd.trans_ne hno.2), ih hrest' hk]
      congr 1
      omega

/-- In sight is a percent sign and a letter. -/
theorem seek_spec {w : Str} : ∀ {j : Nat}, seek w = some j →
    ∃ a d r, w = a ++ percent :: d :: r ∧ a.length = j
      ∧ (d = letterS ∨ d = letterD) := by
  fun_induction seek w with
  | case1 =>
      intro j h
      cases h
  | case2 c =>
      intro j h
      cases h
  | case3 c d w hne ih =>
      intro j h
      obtain ⟨k, hk, rfl⟩ := Option.map_eq_some_iff.mp h
      obtain ⟨a, d', r, heq, hlen, hd'⟩ := ih hk
      exact ⟨c :: a, d', r, by rw [heq]; rfl, by rw [List.length_cons, hlen], hd'⟩
  | case4 c d w hper hd =>
      intro j h
      obtain rfl := Option.some.inj h
      exact ⟨[], d, w, by rw [not_not.mp hper]; rfl, rfl, hd⟩
  | case5 c d w hper hno ih =>
      intro j h
      obtain ⟨k, hk, rfl⟩ := Option.map_eq_some_iff.mp h
      obtain ⟨a, d', r, heq, hlen, hd'⟩ := ih hk
      refine ⟨c :: d :: a, d', r, by rw [heq]; rfl, ?_, hd'⟩
      rw [List.length_cons, List.length_cons, hlen]

-- ============================================================= one directive

/-- A `%s` where a string is passed. -/
theorem expand_string {a r : Str} (p : CStr) (args : List Arg)
    (taken : List (Str × Nat)) :
    expand (a ++ percent :: letterS :: r) a.length (.string p :: args) taken
      = expand (a ++ p.val ++ r) (a.length + 2) args
          (taken ++ [(a ++ percent :: letterS :: r, a.length + 1)]) := by
  have hrest : (a ++ percent :: letterS :: r).drop a.length
      = percent :: letterS :: r := List.drop_left
  obtain ⟨hi, hc, hrest'⟩ := getD_of_drop hrest
  obtain ⟨-, hd, hr⟩ := getD_of_drop hrest'
  rw [expand.eq_def, if_pos hi, if_neg (not_not.mpr hc), if_pos hd]
  unfold replace
  rw [hr, Nat.add_sub_cancel, List.take_left]

/-- A `%d` where an int is passed. -/
theorem expand_int {a r : Str} (n : Int) (args : List Arg)
    (taken : List (Str × Nat)) :
    expand (a ++ percent :: letterD :: r) a.length (.int n :: args) taken
      = if 7 ≤ (decimal n).length then .error .overflow
        else expand (a ++ decimal n ++ r) (a.length + 2) args
          (taken ++ [(a ++ percent :: letterD :: r, a.length + 1)]) := by
  have hrest : (a ++ percent :: letterD :: r).drop a.length
      = percent :: letterD :: r := List.drop_left
  obtain ⟨hi, hc, hrest'⟩ := getD_of_drop hrest
  obtain ⟨-, hd, hr⟩ := getD_of_drop hrest'
  rw [expand.eq_def, if_pos hi, if_neg (not_not.mpr hc),
    if_neg (hd.trans_ne letterD_ne_letterS),
    if_neg (hd.trans_ne letterD_ne_percent), if_pos hd]
  unfold replace
  rw [hr, Nat.add_sub_cancel, List.take_left]

/-- Where the next directive is in sight, its percent sign and letter are
read. -/
theorem read_of_seek {s : Str} {i j : Nat} (h : seek (s.drop i) = some j) :
    i + j < s.length ∧ s.getD (i + j) nul = percent
      ∧ (s.getD (i + j + 1) nul = letterS
        ∨ s.getD (i + j + 1) nul = letterD) := by
  obtain ⟨a, d, r, hw, hlen, hd⟩ := seek_spec h
  have hrest : s.drop (i + j) = percent :: d :: r := by
    rw [← List.drop_drop, hw, ← hlen, List.drop_left]
  obtain ⟨hi, hc, hrest'⟩ := getD_of_drop hrest
  obtain ⟨-, hd', -⟩ := getD_of_drop hrest'
  rw [hd']
  exact ⟨hi, hc, hd⟩

/-- With no argument left it cannot be expanded. -/
theorem expand_no_args {s : Str} {i j : Nat} (h : seek (s.drop i) = some j)
    (taken : List (Str × Nat)) :
    expand s i [] taken = .error .noArgument := by
  obtain ⟨hi, hc, hd⟩ := read_of_seek h
  rw [expand_seek [] taken rfl h, expand.eq_def, if_pos hi,
    if_neg (not_not.mpr hc)]
  rcases hd with hd | hd
  · rw [if_pos hd]
  · rw [hd, if_neg letterD_ne_letterS, if_neg letterD_ne_percent, if_pos rfl]

/-- A format with one directive, `%s`: it is filled, unless the loop,
reading on from the third character of what it has filled it with, sees
another. -/
theorem expand_one_string {a r : Str} (p : CStr)
    (h : seek (a ++ percent :: letterS :: r) = some a.length) :
    expand (a ++ percent :: letterS :: r) 0 [.string p] []
      = match seek ((p.val ++ r).drop 2) with
        | none => .ok ⟨a ++ p.val ++ r, [],
            [(a ++ percent :: letterS :: r, a.length + 1)]⟩
        | some _ => .error .noArgument := by
  have hdrop : (a ++ p.val ++ r).drop (a.length + 2)
      = (p.val ++ r).drop 2 := by
    rw [List.append_assoc, List.drop_append, List.drop_of_length_le (by omega),
      List.nil_append, Nat.add_sub_cancel_left]
  rw [expand_seek _ _ List.drop_zero h, Nat.zero_add, expand_string,
    List.nil_append]
  cases hseek : seek ((p.val ++ r).drop 2) with
  | none => exact expand_of_none _ _ hdrop hseek
  | some j => exact expand_no_args (hdrop ▸ hseek) _

/-- What has been taken stays taken. -/
theorem expand_taken {s : Str} {i : Nat} {args : List Arg}
    {taken : List (Str × Nat)} {e : Expansion}
    (h : expand s i args taken = .ok e) : taken <+: e.taken := by
  fun_induction expand s i args taken with
  | case1 s i args taken hi hne ih => exact ih h
  | case2 s i taken hi hne hs p args ih =>
      exact (List.prefix_append ..).trans (ih h)
  | case3 => cases h
  | case4 => cases h
  | case5 s i args taken hi hne hs hper ih => exact ih h
  | case6 => cases h
  | case7 s i taken hi hne hs hper hd n args hfits ih =>
      exact (List.prefix_append ..).trans (ih h)
  | case8 => cases h
  | case9 => cases h
  | case10 s i args taken hi hne hs hper hd ih => exact ih h
  | case11 s i args taken hi =>
      cases h
      exact List.prefix_rfl

/-- The next thing taken is what is in sight. -/
theorem expand_first {s : Str} {i j : Nat} {args : List Arg}
    {taken : List (Str × Nat)} {e : Expansion}
    (h : seek (s.drop i) = some j) (he : expand s i args taken = .ok e) :
    taken ++ [(s, i + j + 1)] <+: e.taken := by
  obtain ⟨hi, hc, hd⟩ := read_of_seek h
  rw [expand_seek args taken rfl h, expand.eq_def, if_pos hi,
    if_neg (not_not.mpr hc)] at he
  rcases hd with hd | hd
  · rw [if_pos hd] at he
    cases args with
    | nil => cases he
    | cons arg args =>
        cases arg with
        | string p => exact expand_taken he
        | int n => cases he
  · rw [hd, if_neg letterD_ne_letterS, if_neg letterD_ne_percent, if_pos rfl] at he
    cases args with
    | nil => cases he
    | cons arg args =>
        cases arg with
        | string p => cases he
        | int n =>
            dsimp only at he
            split at he
            · cases he
            · exact expand_taken he

-- ================================================================ formats

/-- Literal text: a character other than the percent sign, or two percent
signs. -/
inductive Plain
  | char (c : { c : UInt8 // c ≠ percent ∧ c ≠ nul })
  | percents

def Plain.text : Plain → Str
  | .char c => [c.val]
  | .percents => [percent, percent]

def plainText (l : List Plain) : Str := l.flatMap Plain.text

/-- The directive for an argument, -/
def Arg.directive : Arg → Str
  | .string _ => [percent, letterS]
  | .int _ => [percent, letterD]

/-- and what is to stand in its place. -/
def Arg.text : Arg → Str
  | .string p => p.val
  | .int n => decimal n

/-- A directive with its argument, and the literal text behind it. -/
structure Slot where
  arg : Arg
  behind : List Plain

/-- A format with an argument for each of its directives. -/
structure Format where
  front : List Plain
  slots : List Slot

def Slot.source (s : Slot) : Str := s.arg.directive ++ plainText s.behind

def Slot.filled (s : Slot) : Str := s.arg.text ++ plainText s.behind

def sources (slots : List Slot) : Str := slots.flatMap Slot.source

/-- The format text. -/
def Format.text (f : Format) : Str := plainText f.front ++ sources f.slots

/-- The arguments. -/
def Format.args (f : Format) : List Arg := f.slots.map Slot.arg

/-- The format with each directive replaced by its argument. -/
def Format.expected (f : Format) : Str :=
  plainText f.front ++ f.slots.flatMap Slot.filled

/-- Where the arguments are to be taken: each at its own directive, the
ones before it filled in. -/
def places (pre : Str) : List Slot → List (Str × Nat)
  | [] => []
  | s :: slots =>
      (pre ++ sources (s :: slots), pre.length + 1)
        :: places (pre ++ s.filled) slots

theorem sources_cons (s : Slot) (slots : List Slot) :
    sources (s :: slots) = s.arg.directive ++ (plainText s.behind
      ++ sources slots) := by
  unfold sources
  rw [List.flatMap_cons]
  exact List.append_assoc ..

/-- Literal text is read over. -/
theorem seek_plainText (l : List Plain) (w : Str) :
    seek (plainText l ++ w) = (seek w).map (· + (plainText l).length) := by
  induction l with
  | nil => exact Option.map_id'.symm
  | cons p l ih =>
      cases p with
      | char c =>
          show seek (c.val :: (plainText l ++ w))
            = (seek w).map (· + ((plainText l).length + 1))
          rw [seek_of_ne c.property.1, ih, Option.map_map]
          rfl
      | percents =>
          show seek (percent :: percent :: (plainText l ++ w))
            = (seek w).map (· + ((plainText l).length + 2))
          rw [seek, if_neg (not_not.mpr rfl), if_neg percent_not_letter, ih,
            Option.map_map]
          rfl

/-- No directive in sight, and no percent sign left over at the end. -/
def clear : Str → Bool
  | [] => true
  | [c] => c ≠ percent
  | c :: d :: w =>
      if c ≠ percent then clear (d :: w)
      else d ≠ letterS && d ≠ letterD && clear w

/-- The next directive is the one behind a text exactly when the text is
clear. -/
theorem seek_append_iff (u : Str) {d : UInt8}
    (hd : d = letterS ∨ d = letterD) (r : Str) :
    seek (u ++ percent :: d :: r) = some u.length ↔ clear u = true := by
  have hhere : seek (percent :: d :: r) = some 0 := by
    rw [seek, if_neg (not_not.mpr rfl), if_pos hd]
  fun_induction clear u with
  | case1 => simp [hhere]
  | case2 c =>
      by_cases hc : c = percent
      · have hmiss : seek (c :: percent :: d :: r)
            = (seek (d :: r)).map (· + 2) := by
          rw [seek, if_neg (not_not.mpr hc), if_neg percent_not_letter]
        show seek (c :: percent :: d :: r) = some 1 ↔ _
        rw [hmiss]
        simp [hc]
      · show seek (c :: percent :: d :: r) = some 1 ↔ _
        rw [seek_of_ne hc, hhere]
        simp [hc]
  | case3 c d' w hc ih =>
      show seek (c :: (d' :: w ++ percent :: d :: r))
        = some ((d' :: w).length + 1) ↔ _
      rw [seek_of_ne hc]
      refine Iff.trans ?_ ih
      simp
  | case4 c d' w hc ih =>
      have hper : c = percent := not_not.mp hc
      show seek (c :: d' :: (w ++ percent :: d :: r)) = some (w.length + 2) ↔ _
      by_cases hd' : d' = letterS ∨ d' = letterD
      · rw [seek, if_neg hc, if_pos hd']
        rcases hd' with rfl | rfl
        · simp
        · simp
      · rw [seek, if_neg hc, if_neg hd']
        rw [not_or] at hd'
        have hrest : (d' ≠ letterS && d' ≠ letterD && clear w) = clear w := by
          simp [hd']
        rw [hrest]
        refine Iff.trans ?_ ih
        simp

-- =============================================================== one slot

/-- `result_` has room for the number. -/
def Arg.Fits : Arg → Prop
  | .string _ => True
  | .int n => (decimal n).length < 7

instance (arg : Arg) : Decidable arg.Fits :=
  match arg with
  | .string _ => isTrue trivial
  | .int n => inferInstanceAs (Decidable ((decimal n).length < 7))

/-- Reading on from the third character of a filled slot, the loop comes
to the next slot, or behind the last one to the end. -/
def ReadsOver (s : Slot) : List Slot → Prop
  | [] => seek (s.filled.drop 2) = none
  | _ :: _ => 2 ≤ s.filled.length ∧ clear (s.filled.drop 2) = true

/-- The loop, at index `i` of a text filled up to `pre`, comes next to
the first of these slots, or to the end. -/
def AtPlace (pre : Str) (i : Nat) : List Slot → Prop
  | [] => seek (pre.drop i) = none
  | s :: slots => i ≤ pre.length
      ∧ seek ((pre ++ sources (s :: slots)).drop i) = some (pre.length - i)

/-- A slot starts with a directive. -/
theorem sources_eq (s : Slot) (slots : List Slot) :
    ∃ d r, sources (s :: slots) = percent :: d :: r
      ∧ (d = letterS ∨ d = letterD) := by
  rw [sources_cons]
  cases s.arg with
  | string p => exact ⟨_, _, rfl, Or.inl rfl⟩
  | int n => exact ⟨_, _, rfl, Or.inr rfl⟩

/-- Behind a filled slot the loop is at its place for the next exactly
when the slot can be read over. -/
theorem atPlace_next_iff (pre : Str) (s : Slot) (slots : List Slot) :
    AtPlace (pre ++ s.filled) (pre.length + 2) slots ↔ ReadsOver s slots := by
  have hdrop : ∀ w : Str,
      (pre ++ w).drop (pre.length + 2) = w.drop 2 := fun w => by
    rw [List.drop_append, List.drop_of_length_le (by omega), List.nil_append]
    congr 1
    omega
  cases slots with
  | nil =>
      unfold AtPlace ReadsOver
      rw [hdrop]
  | cons t slots =>
      obtain ⟨d, r, heq, hd⟩ := sources_eq t slots
      unfold AtPlace ReadsOver
      show _ ∧ _ ↔ _ ∧ _
      rw [List.append_assoc, hdrop, List.length_append]
      have hle : pre.length + 2 ≤ pre.length + s.filled.length
          ↔ 2 ≤ s.filled.length := by omega
      rw [hle]
      apply and_congr_right
      intro hlen
      have hpos : pre.length + s.filled.length - (pre.length + 2)
          = (s.filled.drop 2).length := by
        rw [List.length_drop]
        omega
      rw [List.drop_append_of_le_length hlen, hpos, heq]
      exact seek_append_iff _ hd r

/-- From its place the loop fills the slot. -/
theorem expand_slot (pre : Str) (s : Slot) (slots : List Slot) (args : List Arg)
    (taken : List (Str × Nat)) :
    expand (pre ++ sources (s :: slots)) pre.length (s.arg :: args) taken
      = if s.arg.Fits then
          expand (pre ++ s.filled ++ sources slots) (pre.length + 2) args
            (taken ++ [(pre ++ sources (s :: slots), pre.length + 1)])
        else .error .overflow := by
  have hsame : ∀ w : Str, pre ++ (w ++ plainText s.behind) ++ sources slots
      = pre ++ (w ++ (plainText s.behind ++ sources slots)) := fun w => by
    rw [List.append_assoc, List.append_assoc]
  rw [sources_cons]
  unfold Slot.filled
  rw [hsame]
  cases s.arg with
  | string p =>
      have hfits : (Arg.string p).Fits := trivial
      have hrun := expand_string (a := pre)
        (r := plainText s.behind ++ sources slots) p args taken
      rw [if_pos hfits]
      rw [List.append_assoc] at hrun
      exact hrun
  | int n =>
      have hrun := expand_int (a := pre)
        (r := plainText s.behind ++ sources slots) n args taken
      by_cases hn : (decimal n).length < 7
      · have hfits : (Arg.int n).Fits := hn
        rw [if_neg (Nat.not_le.mpr hn), List.append_assoc] at hrun
        rw [if_pos hfits]
        exact hrun
      · have hfits : ¬ (Arg.int n).Fits := hn
        rw [if_pos (Nat.not_lt.mp hn)] at hrun
        rw [if_neg hfits]
        exact hrun

/-- A loop that is not at its place takes an argument elsewhere, or one
that was not passed, or none. -/
theorem expand_astray {pre : Str} {i : Nat} {slots : List Slot}
    (h : ¬ AtPlace pre i slots) (taken : List (Str × Nat)) (text : Str) :
    expand (pre ++ sources slots) i (slots.map Slot.arg) taken
      ≠ .ok ⟨text, [], taken ++ places pre slots⟩ := by
  intro hrun
  cases hseek : seek ((pre ++ sources slots).drop i) with
  | none =>
      cases slots with
      | nil =>
          have hnil : pre ++ sources [] = pre := List.append_nil pre
          rw [hnil] at hseek
          exact h hseek
      | cons s slots =>
          rw [expand_of_none _ _ rfl hseek] at hrun
          have hargs := congrArg Expansion.args (Except.ok.inj hrun)
          cases hargs
  | some j =>
      cases slots with
      | nil =>
          rw [List.map_nil, expand_no_args hseek] at hrun
          cases hrun
      | cons s slots =>
          have hfirst : [(pre ++ sources (s :: slots), i + j + 1)]
              <+: places pre (s :: slots) :=
            (List.prefix_append_right_inj taken).mp (expand_first hseek hrun)
          have hplace := congrArg Prod.snd (List.cons_prefix_cons.mp hfirst).1
          have hij : i + j + 1 = pre.length + 1 := hplace
          refine h ⟨by omega, ?_⟩
          rw [hseek]
          congr 1
          omega

-- ============================================================== a format

/-- Every number fits, and every filled slot can be read over. -/
def Clean : List Slot → Prop
  | [] => True
  | s :: slots => s.arg.Fits ∧ ReadsOver s slots ∧ Clean slots

/-- From its place for the first slot the loop fills all of them exactly
when they are clean. -/
theorem expand_slots_iff {slots : List Slot} :
    ∀ {pre : Str} {i : Nat} {taken : List (Str × Nat)}, AtPlace pre i slots →
      (expand (pre ++ sources slots) i (slots.map Slot.arg) taken
          = .ok ⟨pre ++ slots.flatMap Slot.filled, [],
              taken ++ places pre slots⟩
        ↔ Clean slots) := by
  induction slots with
  | nil =>
      intro pre i taken h
      have hnil : pre ++ sources [] = pre := List.append_nil pre
      rw [hnil, List.map_nil, expand_of_none [] taken rfl h]
      refine iff_of_true ?_ trivial
      rw [List.flatMap_nil, List.append_nil]
      exact congrArg (fun l => Except.ok (Expansion.mk pre [] l))
        (List.append_nil taken).symm
  | cons s slots ih =>
      intro pre i taken h
      obtain ⟨hi, hseek⟩ := h
      have hplace : i + (pre.length - i) = pre.length := by omega
      have htaken : taken ++ places pre (s :: slots)
          = taken ++ [(pre ++ sources (s :: slots), pre.length + 1)]
            ++ places (pre ++ s.filled) slots := List.append_cons ..
      have hfilled : pre ++ (s :: slots).flatMap Slot.filled
          = pre ++ s.filled ++ slots.flatMap Slot.filled := by
        rw [List.flatMap_cons, List.append_assoc]
      rw [expand_seek _ taken rfl hseek, hplace, List.map_cons, expand_slot,
        htaken, hfilled]
      unfold Clean
      by_cases hfits : s.arg.Fits
      · rw [if_pos hfits, ← atPlace_next_iff pre s slots]
        by_cases hnext : AtPlace (pre ++ s.filled) (pre.length + 2) slots
        · rw [ih hnext]
          simp [hfits, hnext]
        · refine iff_of_false (expand_astray hnext _ _) ?_
          exact fun hclean => hnext hclean.2.1
      · rw [if_neg hfits]
        refine iff_of_false (fun hno => by cases hno) ?_
        exact fun hclean => hfits hclean.1

/-- The loop takes each argument at its own directive and none elsewhere,
and produces the format with each directive replaced by its argument. -/
def Format.Expands (f : Format) : Prop :=
  expand f.text 0 f.args [] = .ok ⟨f.expected, [], places (plainText f.front)
    f.slots⟩

/-- When log arguments are data. For every format of literal characters,
`%s`, `%d` and `%%`, with arguments matching its directives: the loop
takes exactly these arguments, each at its directive, and produces the
format with the arguments in their places, exactly when every number
fits `result_` and, behind every argument but the last, the argument and
the literal text up to the next directive have two characters at least,
no directive in sight from the third on and no percent sign left over;
behind the last one, no directive in sight. -/
theorem expand_iff (f : Format) : f.Expands ↔ Clean f.slots := by
  have hplace : AtPlace (plainText f.front) 0 f.slots := by
    cases hs : f.slots with
    | nil =>
        show seek (plainText f.front) = none
        rw [← List.append_nil (plainText f.front), seek_plainText]
        rfl
    | cons s slots =>
        obtain ⟨d, r, heq, hd⟩ := sources_eq s slots
        refine ⟨Nat.zero_le _, ?_⟩
        rw [List.drop_zero, seek_plainText, heq, seek,
          if_neg (not_not.mpr rfl), if_pos hd]
        simp
  exact expand_slots_iff hplace

/-- The message of a page sent to a client that asked for `/%s`: an
argument is taken that was never passed. -/
theorem route_taken_as_format :
    expand (bytes "From %s pages send fin.") 0
        [.string ⟨bytes "./%s", by decide⟩] []
      = .error .noArgument := by
  have hsee : seek (bytes "From " ++ percent :: letterS
      :: bytes " pages send fin.") = some (bytes "From ").length := by
    decide
  exact expand_one_string ⟨bytes "./%s", by decide⟩ hsee

end TrashyServer.Log
