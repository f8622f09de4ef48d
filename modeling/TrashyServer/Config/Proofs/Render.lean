/-
A configuration file as somebody may write it, and that `load_file_to`
reads back what was written.

A `Setting` is a pair that can be written at all: neither part holds a
`#`, a space, a newline or a NUL, and the key no colon. Its line is
`key:value` with spaces put in anywhere (`Spaced`) and perhaps a comment
behind it; between such lines may stand empty ones and comments
(`Rendering`), and the text ends in a newline or not (`TextOf`).

Every line of a rendering is clean, so the text loads; what its lines
stand for are the pairs, in order (`load_rendering`).
-/
import TrashyServer.Config.Proofs.Load

namespace TrashyServer.Config

open FileStream (lines)
open Server (maxline)

-- ============================================================== rendering

/-- A byte that a pair may hold. -/
def plain (b : UInt8) : Bool :=
  b ≠ hash && b ≠ space && b ≠ lf && b ≠ nul

/-- A pair that can be written to the file. -/
structure Setting where
  key : Str
  value : Str
  keyPlain : key.all (fun b => plain b && b ≠ colon) = true
  valuePlain : value.all plain = true

/-- The pair as `load_file_to` returns it. -/
def Setting.pair (p : Setting) : Str × Str := (p.key, p.value)

/-- `key:value`. -/
def Setting.text (p : Setting) : Str := p.key ++ colon :: p.value

/-- The second text is the first with spaces put in. -/
inductive Spaced : Str → Str → Prop
  | nil : Spaced [] []
  | put {t s : Str} (h : Spaced t s) : Spaced t (space :: s)
  | keep (b : UInt8) {t s : Str} (h : Spaced t s) : Spaced (b :: t) (b :: s)

/-- A line for a pair. -/
inductive SettingLine (p : Setting) : Str → Prop
  | bare {s : Str} (h : Spaced p.text s) : SettingLine p s
  | commented {s : Str} (h : Spaced p.text s) (comment : Str) :
      SettingLine p (s ++ hash :: comment)

/-- Lines for these pairs, and lines without a pair. -/
inductive Rendering : List Setting → List Str → Prop
  | nil : Rendering [] []
  | blank {ps : List Setting} {ls : List Str} (h : Rendering ps ls) :
      Rendering ps ([] :: ls)
  | comment (text : Str) {ps : List Setting} {ls : List Str}
      (h : Rendering ps ls) : Rendering ps ((hash :: text) :: ls)
  | setting {p : Setting} {l : Str} (hl : SettingLine p l)
      {ps : List Setting} {ls : List Str} (h : Rendering ps ls) :
      Rendering (p :: ps) (l :: ls)

/-- A text of these lines, with a final newline or without. -/
def TextOf (ls : List Str) (text : Str) : Prop :=
  text = ls.flatMap (· ++ [lf]) ∨ text = List.intercalate [lf] ls

theorem plain_iff {b : UInt8} :
    plain b = true ↔ b ≠ hash ∧ b ≠ space ∧ b ≠ lf ∧ b ≠ nul := by
  simp [plain, and_assoc]

theorem Setting.text_plain (p : Setting) {b : UInt8} (hb : b ∈ p.text) :
    plain b = true := by
  rcases List.mem_append.mp hb with hb | hb
  · have hkey := List.all_eq_true.mp p.keyPlain b hb
    exact (Bool.and_eq_true_iff.mp hkey).1
  · rcases List.mem_cons.mp hb with rfl | hb
    · rfl
    · exact List.all_eq_true.mp p.valuePlain b hb

theorem Setting.ne_colon (p : Setting) {b : UInt8} (hb : b ∈ p.key) :
    b ≠ colon := by
  have hkey := List.all_eq_true.mp p.keyPlain b hb
  simpa using (Bool.and_eq_true_iff.mp hkey).2

/-- Taking the spaces out again. -/
theorem Spaced.removeSpace_eq {t s : Str} (h : Spaced t s)
    (ht : space ∉ t) : removeSpace s = t := by
  induction h with
  | nil => rfl
  | put h ih => exact ih ht
  | keep b h ih =>
      have hb : b ≠ space := fun hb => ht (hb ▸ List.mem_cons_self ..)
      unfold removeSpace at ih ⊢
      rw [List.filter_cons_of_pos (by simpa using hb),
        ih fun h => ht (List.mem_cons_of_mem _ h)]

/-- Every text has its spaces put in. -/
theorem spaced_removeSpace (s : Str) : Spaced (removeSpace s) s := by
  induction s with
  | nil => exact .nil
  | cons b s ih =>
      unfold removeSpace at ih ⊢
      by_cases hb : b = space
      · rw [List.filter_cons_of_neg (by simpa using hb), hb]
        exact .put ih
      · rw [List.filter_cons_of_pos (by simpa using hb)]
        exact .keep b ih

/-- A byte other than a space comes from the text. -/
theorem Spaced.mem {t s : Str} (h : Spaced t s) {b : UInt8} (hb : b ∈ s)
    (hspace : b ≠ space) : b ∈ t := by
  induction h with
  | nil => exact hb
  | put h ih => exact ih ((List.mem_cons.mp hb).resolve_left hspace)
  | keep c h ih =>
      rcases List.mem_cons.mp hb with rfl | hb
      · exact List.mem_cons_self ..
      · exact List.mem_cons_of_mem _ (ih hb)

-- ============================================================ the way back

/-- A text split at its first colon. -/
theorem splitPair_text (p : Setting) : splitPair p.text = p.pair := by
  have hfree : nul ∉ p.text := fun h =>
    (plain_iff.mp (p.text_plain h)).2.2.2 rfl
  have hmem : colon ∈ p.text := by
    unfold Setting.text
    simp
  have hkey : p.text.takeWhile (· ≠ colon) = p.key :=
    takeWhile_at (fun h => p.ne_colon h rfl) p.value
  unfold splitPair
  rw [cut_of_nulFree hfree, if_pos hmem, hkey]
  unfold Setting.text Setting.pair
  dsimp only
  rw [List.take_left, List.drop_length_add_append]
  rfl

/-- What stands before the comment of a line for a pair. -/
theorem SettingLine.uncommented_spaced {p : Setting} {l : Str}
    (h : SettingLine p l) :
    Spaced p.text (uncommented l) := by
  have hno : ∀ {s : Str} {c : UInt8}, Spaced p.text s → c ≠ space →
      plain c = false → c ∉ s := fun hs hspace hc hmem => by
    rw [p.text_plain (hs.mem hmem hspace)] at hc
    cases hc
  cases h with
  | bare hs =>
      have hhash : hash ∉ cut l := fun hmem =>
        hno hs (by decide) rfl ((List.takeWhile_prefix _).subset hmem)
      have hun : uncommented l = l := if_neg hhash
      rw [hun]
      exact hs
  | @commented s hs comment =>
      have hnul : nul ∉ s := hno hs (by decide) rfl
      have hhash : hash ∉ s := hno hs (by decide) rfl
      have hcut : hash ∈ cut (s ++ hash :: comment) := by
        rw [cut_append hnul]
        exact List.mem_append_right _ (by simp [cut, hash, nul])
      have hun : uncommented (s ++ hash :: comment) = s := by
        unfold uncommented
        rw [if_pos hcut, takeWhile_at hhash]
      rw [hun]
      exact hs

/-- A line for a pair that fits is clean, and stands for that pair. -/
theorem SettingLine.clean {p : Setting} {l : Str} (h : SettingLine p l)
    (hfit : l.length < maxline) :
    ¬ Faulty l ∧ pairOf l = some p.pair := by
  have hs := h.uncommented_spaced
  have hremove : removeSpace (uncommented l) = p.text :=
    hs.removeSpace_eq fun hm => (plain_iff.mp (p.text_plain hm)).2.1 rfl
  have htext : p.text ≠ [] := by
    unfold Setting.text
    simp
  have hun : uncommented l ≠ [] := by
    intro hnil
    rw [hnil] at hremove
    exact htext hremove.symm
  constructor
  · intro hfaulty
    rcases hfaulty with hlong | ⟨-, hspaces⟩
    · exact not_overlong hfit hlong
    · rw [← removeSpace_eq_nil_iff, hremove] at hspaces
      exact htext hspaces
  · unfold pairOf
    rw [if_neg hun, hremove, splitPair_text]

/-- A line without a pair is passed over. -/
theorem clean_of_uncommented_nil {l : Str} (hfit : l.length < maxline)
    (h : uncommented l = []) : ¬ Faulty l ∧ pairOf l = none := by
  constructor
  · intro hfaulty
    rcases hfaulty with hlong | ⟨hne, -⟩
    · exact not_overlong hfit hlong
    · exact hne h
  · exact if_pos h

theorem uncommented_comment (text : Str) : uncommented (hash :: text) = [] := by
  unfold uncommented
  rw [if_pos (by simp [cut, hash, nul])]
  simp

/-- Every line of a rendering is clean, and together they stand for the
pairs. -/
theorem Rendering.clean {ps : List Setting} {ls : List Str}
    (h : Rendering ps ls) (hfit : ∀ l ∈ ls, l.length < maxline) :
    (∀ l ∈ ls, ¬ Faulty l) ∧ ls.filterMap pairOf = ps.map Setting.pair := by
  induction h with
  | nil => exact ⟨fun l hl => absurd hl List.not_mem_nil, rfl⟩
  | blank h ih =>
      rw [List.forall_mem_cons] at hfit
      obtain ⟨hclean, hpairs⟩ := ih hfit.2
      obtain ⟨hl, hp⟩ := clean_of_uncommented_nil hfit.1 rfl
      rw [List.forall_mem_cons, List.filterMap_cons_none hp]
      exact ⟨⟨hl, hclean⟩, hpairs⟩
  | comment text h ih =>
      rw [List.forall_mem_cons] at hfit
      obtain ⟨hclean, hpairs⟩ := ih hfit.2
      obtain ⟨hl, hp⟩ := clean_of_uncommented_nil hfit.1
        (uncommented_comment text)
      rw [List.forall_mem_cons, List.filterMap_cons_none hp]
      exact ⟨⟨hl, hclean⟩, hpairs⟩
  | setting hl h ih =>
      rw [List.forall_mem_cons] at hfit
      obtain ⟨hclean, hpairs⟩ := ih hfit.2
      obtain ⟨hl, hp⟩ := hl.clean hfit.1
      rw [List.forall_mem_cons, List.filterMap_cons_some hp, hpairs]
      exact ⟨⟨hl, hclean⟩, rfl⟩

/-- The lines of a text made of lines; a final newline makes an empty
one more. -/
theorem lines_textOf {ls : List Str} {text : Str} (h : TextOf ls text)
    (hls : ∀ l ∈ ls, lf ∉ l) : lines text = ls ∨ lines text = ls ++ [[]] := by
  rcases h with rfl | rfl
  · right
    induction ls with
    | nil => rfl
    | cons l ls ih =>
        rw [List.forall_mem_cons] at hls
        rw [List.flatMap_cons, List.append_assoc]
        show lines (l ++ lf :: ls.flatMap (· ++ [lf])) = _
        rw [lines_of_line hls.1, ih hls.2]
        rfl
  · by_cases hnil : ls = []
    · right
      rw [hnil]
      rfl
    · left
      exact List.splitOn_intercalate lf hls hnil

/-- Loading a text gives back the pairs it was written from, however it
was decorated. -/
theorem load_rendering {ps : List Setting} {ls : List Str} {text : Str}
    (h : Rendering ps ls) (hls : ∀ l ∈ ls, lf ∉ l ∧ l.length < maxline)
    (htext : TextOf ls text) :
    ∃ n, loadFileTo n (.opens text .endOfFile)
      = some (.ok (ps.map Setting.pair)) := by
  obtain ⟨hclean, hpairs⟩ := h.clean fun l hl => (hls l hl).2
  rcases lines_textOf htext fun l hl => (hls l hl).1 with heq | heq
  · rw [← heq] at hclean
    obtain ⟨n, hn⟩ := loadFileTo_of_clean hclean
    rw [heq, hpairs] at hn
    exact ⟨n, hn⟩
  · obtain ⟨hlast, hnone⟩ := clean_of_uncommented_nil (l := [])
      (by decide) rfl
    have hall : ∀ l ∈ lines text, ¬ Faulty l := by
      rw [heq]
      intro l hl
      rcases List.mem_append.mp hl with hl | hl
      · exact hclean l hl
      · rw [List.mem_singleton.mp hl]
        exact hlast
    obtain ⟨n, hn⟩ := loadFileTo_of_clean hall
    rw [heq, List.filterMap_append, hpairs, List.filterMap_cons_none hnone,
      List.filterMap_nil, List.append_nil] at hn
    exact ⟨n, hn⟩

/-- A comment, an empty line, spaces around a value, and a value with a
colon of its own on a last line without a newline. -/
theorem load_rendering_site :
    ∃ n, loadFileTo n (.opens
        (bytes "#site\n\nlisten_port: 80 #\nlocation:/a:b") .endOfFile)
      = some (.ok [(bytes "listen_port", bytes "80"),
          (bytes "location", bytes "/a:b")]) := by
  have hport : Spaced (bytes "listen_port:80") (bytes "listen_port: 80 ") :=
    spaced_removeSpace (bytes "listen_port: 80 ")
  have hlocation : Spaced (bytes "location:/a:b") (bytes "location:/a:b") :=
    spaced_removeSpace (bytes "location:/a:b")
  have h : Rendering
      [⟨bytes "listen_port", bytes "80", rfl, rfl⟩,
        ⟨bytes "location", bytes "/a:b", rfl, rfl⟩]
      [bytes "#site", [], bytes "listen_port: 80 #", bytes "location:/a:b"] := by
    apply Rendering.comment (bytes "site")
    apply Rendering.blank
    apply Rendering.setting
    · exact .commented (p := ⟨bytes "listen_port", bytes "80", rfl, rfl⟩) hport []
    apply Rendering.setting
    · exact .bare (p := ⟨bytes "location", bytes "/a:b", rfl, rfl⟩) hlocation
    exact .nil
  exact load_rendering h (by decide) (.inr rfl)

end TrashyServer.Config
