/-
Which paths `get_text_file_T` finds the suffix of.

`strrchr` finds the last dot, and `str_offset_L` turns its position into
an offset by comparing characters: it stops at the first one
(`strOffsetL_first`). What is returned stands behind the first dot
(`getTextFileT_eq`), and that is the suffix only where there is no
second one (`suffix_iff`).
-/
import Mathlib.Data.List.DropRight
import TrashyServer.Server.Proofs.Deliver

namespace TrashyServer.Server

open Config (dot strcpy strOffsetL)

-- ================================================================ two dots

/-- A byte that occurs has a last occurrence. -/
theorem exists_last_byte {c : UInt8} {s : Str} (h : c ∈ s) :
    ∃ a b, s = a ++ c :: b ∧ c ∉ b := by
  have hinfix : [c] <:+: s := (List.singleton_infix_iff c s).mpr h
  obtain ⟨a, b, hab, hlast⟩ := Search.exists_last (List.cons_ne_nil c []) hinfix
  exact ⟨a, b, hab, mt (List.singleton_infix_iff c b).mpr hlast⟩

/-- `strrchr` points at it. -/
theorem lastFrom_append {c : UInt8} {b : Str} (h : c ∉ b) (a : Str) :
    lastFrom c (a ++ c :: b) = some (c :: b) := by
  have hnone : lastFrom c b = none := by
    cases hb : lastFrom c b with
    | none => rfl
    | some text => exact absurd (lastFrom_eq_some hb).1 h
  induction a with
  | nil =>
      unfold lastFrom
      rw [List.nil_append]
      simp [hnone]
  | cons x a ih =>
      rw [List.cons_append]
      unfold lastFrom
      rw [ih]

/-- And the text behind it is the longest end without the byte. -/
theorem rtakeWhile_append {c : UInt8} {b : Str} (h : c ∉ b) (a : Str) :
    (a ++ c :: b).rtakeWhile (· ≠ c) = b := by
  have hrev : (a ++ c :: b).reverse = b.reverse ++ c :: a.reverse := by simp
  unfold List.rtakeWhile
  rw [hrev, takeWhile_at (mt List.mem_reverse.mp h), List.reverse_reverse]

-- ================================================================ the paths

/-- A path with a dot that fits the buffer. -/
structure DottedPath where
  text : Str
  nulFree : nul ∉ text
  short : text.length < maxline
  dotted : dot ∈ text

/-- The text after the last dot. -/
def DottedPath.suffix (p : DottedPath) : Str := p.text.rtakeWhile (· ≠ dot)

/-- `strrchr` finds the suffix with its dot. -/
theorem strrchr_eq (p : DottedPath) :
    strrchr p.text dot = some (dot :: p.suffix) := by
  obtain ⟨a, b, hab, hb⟩ := exists_last_byte p.dotted
  unfold strrchr DottedPath.suffix
  rw [cut_of_nulFree p.nulFree, hab, lastFrom_append hb, rtakeWhile_append hb]

/-- `str_offset_L` finds the first dot, given any. -/
theorem strOffsetL_first {p : DottedPath} {a b : Str}
    (hab : p.text = a ++ dot :: b) (ha : dot ∉ a) :
    strOffsetL p.text (strrchr p.text dot) = a.length := by
  rw [strrchr_eq]
  show Config.offsetLoop p.text dot = a.length
  rw [Config.offsetLoop_eq p.nulFree p.dotted, hab, takeWhile_at ha]

/-- What is returned is the text behind the first dot. -/
theorem getTextFileT_eq {p : DottedPath} {a b : Str}
    (hab : p.text = a ++ dot :: b) (ha : dot ∉ a) :
    getTextFileT p.text = .ok b := by
  have hcut := cut_of_nulFree p.nulFree
  have hfit : strlen p.text < maxline := by
    rw [strlen_of_nulFree p.nulFree]
    exact p.short
  have hlen : p.text.length = a.length + 1 + b.length := by
    rw [hab, List.length_append, List.length_cons]
    omega
  have hdrop : p.text.drop (a.length + 1) = b := by
    rw [hab, ← List.drop_drop, List.drop_left]
    rfl
  unfold getTextFileT strcpy
  rw [if_pos hfit, ok_bind, hcut]
  dsimp only
  rw [strOffsetL_first hab ha, substr_of_le (by omega), hdrop,
    List.take_of_length_le (by omega)]

-- =============================================================== the suffix

/-- `get_text_file_T` returns the text after the last dot. -/
def SuffixTaken (p : DottedPath) : Prop := getTextFileT p.text = .ok p.suffix

/-- `str_offset_L` returns the distance from the start of the buffer to
the position that `strrchr` found in it. -/
def OffsetAgrees (p : DottedPath) : Prop :=
  ∃ found, strrchr p.text dot = some found
    ∧ strOffsetL p.text (some found) + found.length = p.text.length

/-- The text behind the first dot is the suffix exactly if it is the
only one. -/
theorem eq_suffix_iff {p : DottedPath} {a b : Str}
    (hab : p.text = a ++ dot :: b) (ha : dot ∉ a) :
    b = p.suffix ↔ p.text.count dot = 1 := by
  have hcount : p.text.count dot = b.count dot + 1 := by
    rw [hab, List.count_append, List.count_eq_zero_of_not_mem ha,
      List.count_cons_self, Nat.zero_add]
  have hone : p.text.count dot = 1 ↔ dot ∉ b := by
    rw [hcount, ← List.count_eq_zero]
    omega
  rw [hone]
  constructor
  · intro hb hdot
    rw [hb] at hdot
    simpa using List.mem_rtakeWhile_imp hdot
  · intro hb
    unfold DottedPath.suffix
    rw [hab, rtakeWhile_append hb]

/-- When the suffix is found. For every path without a NUL that has a
dot and fits the buffer: `get_text_file_T` returns the text after the
last dot exactly when there is only one, and that is also exactly when
`str_offset_L` returns the distance to the position `strrchr` found. -/
theorem suffix_iff (p : DottedPath) :
    (SuffixTaken p ↔ p.text.count dot = 1)
      ∧ (OffsetAgrees p ↔ p.text.count dot = 1) := by
  obtain ⟨a, b, hab, ha⟩ := List.eq_append_cons_of_mem p.dotted
  have heq := eq_suffix_iff hab ha
  constructor
  · rw [← heq]
    unfold SuffixTaken
    rw [getTextFileT_eq hab ha]
    exact ⟨Except.ok.inj, congrArg Except.ok⟩
  · have hsuffix : p.suffix <:+ p.text := List.rtakeWhile_suffix _ _
    have hrest : b <:+ p.text := ⟨a ++ [dot], by rw [hab]; simp⟩
    have hlen : p.text.length = a.length + (dot :: b).length := by
      rw [hab, List.length_append]
    rw [← heq]
    unfold OffsetAgrees
    constructor
    · rintro ⟨found, hfound, hoffset⟩
      rw [← hfound, strOffsetL_first hab ha] at hoffset
      obtain rfl := Option.some.inj ((strrchr_eq p).symm.trans hfound)
      have hsame : b.length = p.suffix.length := by
        rw [List.length_cons] at hlen hoffset
        omega
      exact (List.suffix_of_suffix_length_le hrest hsuffix hsame.le).eq_of_length
        hsame
    · intro hb
      refine ⟨dot :: p.suffix, strrchr_eq p, ?_⟩
      rw [← strrchr_eq, strOffsetL_first hab ha, ← hb, hlen]

/-- The route of a page under `./` has two dots, and its suffix comes
out as all but its first byte. -/
theorem suffix_under_root : ∃ p : DottedPath,
    p.text = bytes "./index.html" ∧ p.suffix = bytes "html"
      ∧ getTextFileT p.text = .ok (bytes "/index.html")
      ∧ ¬ SuffixTaken p ∧ ¬ OffsetAgrees p := by
  have hpage : ∃ p : DottedPath, p.text = bytes "./index.html" :=
    ⟨⟨bytes "./index.html", by decide, by decide, by decide⟩, rfl⟩
  obtain ⟨p, hp⟩ := hpage
  have hsuffix : p.suffix = bytes "html" := by
    unfold DottedPath.suffix
    rw [hp]
    decide
  have htaken : getTextFileT p.text = .ok (bytes "/index.html") := by
    rw [hp]
    decide
  refine ⟨p, hp, hsuffix, htaken, ?_, ?_⟩
  · unfold SuffixTaken
    rw [htaken, hsuffix]
    decide
  · rintro ⟨found, hfound, hoffset⟩
    have hlast : strrchr (bytes "./index.html") dot = some (bytes ".html") := by
      decide
    rw [hp, hlast] at hfound
    obtain rfl := Option.some.inj hfound
    revert hoffset
    rw [hp]
    decide

end TrashyServer.Server
