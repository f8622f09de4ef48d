/-
What `load_file_to` makes of a text.

# One line

`loadLine_of_clean` is all that is used of the loop's body: what stands
before the comment of a line, without its spaces, split at the first
colon (`pairOf`). A line of which nothing stands there is passed over. A
line of which only spaces stand there is not: it is found non-empty, its
spaces are removed, and the value is then taken from behind the end of
nothing (`Faulty`).

# The text

A text is its lines (`text_induction`), each of which is one round of
the loop; the end of the file is met in the round of the last one. So a
text loads exactly when none of its lines is faulty
(`loadFileTo_of_clean`, `loadFileTo_of_faulty`).
-/
import TrashyServer.Config.Model

namespace TrashyServer.Config

open FileStream (lines)
open Server (maxline)

-- ============================================================ the searches

/-- `str_offset_L` stops at the first byte equal to the one it is
given. -/
theorem offsetLoop_eq {s : Str} {c : UInt8} (hs : nul ∉ s) (hc : c ∈ s) :
    offsetLoop s c = (s.takeWhile (· ≠ c)).length := by
  induction s with
  | nil => cases hc
  | cons b s ih =>
      have hb : b ≠ nul := fun h => hs (h ▸ List.mem_cons_self ..)
      rw [offsetLoop, if_neg hb, List.takeWhile_cons]
      by_cases hbc : b = c
      · simp [hbc]
      · have hmem : c ∈ s := (List.mem_cons.mp hc).resolve_left (Ne.symm hbc)
        have hfree : nul ∉ s := fun h => hs (List.mem_cons_of_mem _ h)
        rw [if_pos hbc, ih hfree hmem]
        simp [hbc]

/-- The pointer `strchr` finds points at the character. -/
theorem strchr_of_mem {s : Str} {c : UInt8} (h : c ∈ cut s) :
    ∃ rest, strchr s c = some (c :: rest) := by
  unfold strchr
  rw [if_pos h]
  obtain ⟨a, b, heq, ha⟩ := List.eq_append_cons_of_mem h
  refine ⟨b, ?_⟩
  rw [heq, dropWhile_at ha]

/-- The offset of a character in a text, 0 where it does not occur. -/
theorem strOffsetL_strchr (s : Str) (c : UInt8) :
    strOffsetL (cut s) (strchr (cut s) c)
      = if c ∈ cut s then ((cut s).takeWhile (· ≠ c)).length else 0 := by
  have hfree := nul_notMem_cut s
  have hcut := cut_of_nulFree hfree
  by_cases h : c ∈ cut s
  · obtain ⟨rest, hrest⟩ := strchr_of_mem (s := cut s) (hcut.symm ▸ h)
    rw [hrest, if_pos h]
    exact offsetLoop_eq hfree h
  · unfold strchr
    rw [hcut, if_neg h, if_neg h]
    rfl

-- ================================================================ one line

/-- What stands before the comment of a line. -/
def uncommented (l : Str) : Str :=
  if hash ∈ cut l then l.takeWhile (· ≠ hash) else l

/-- The key and the value of a text without spaces. -/
def splitPair (u : Str) : Str × Str :=
  let leftLen := if colon ∈ cut u then ((cut u).takeWhile (· ≠ colon)).length
    else 0
  (u.take leftLen, u.drop (leftLen + 1))

/-- The pair a line stands for, if it stands for one. -/
def pairOf (l : Str) : Option (Str × Str) :=
  if uncommented l = [] then none
  else some (splitPair (removeSpace (uncommented l)))

/-- What `tmp_file_buff` holds after a line. -/
def kept (l : Str) : Str :=
  if uncommented l = [] then l else removeSpace (uncommented l)

/-- The line does not fit the array it is copied to. -/
def Overlong (l : Str) : Prop :=
  (hash ∈ cut l ∧ maxline ≤ strlen l)
    ∨ (uncommented l ≠ [] ∧ maxline ≤ strlen (removeSpace (uncommented l)))

/-- Something stands before the comment of the line, but only spaces. -/
def Hollow (l : Str) : Prop :=
  uncommented l ≠ [] ∧ ∀ b ∈ uncommented l, b = space

/-- The lines the loop fails at. -/
def Faulty (l : Str) : Prop := Overlong l ∨ Hollow l

/-- A short line fits. -/
theorem not_overlong {l : Str} (h : l.length < maxline) : ¬ Overlong l := by
  have hun : (uncommented l).length ≤ l.length := by
    unfold uncommented
    split
    · exact (List.takeWhile_prefix _).length_le
    · exact Nat.le_refl _
  intro hlong
  rcases hlong with ⟨-, hlong⟩ | ⟨-, hlong⟩
  · have hl : strlen l ≤ l.length := length_cut_le l
    omega
  · have hremoved : (removeSpace (uncommented l)).length
        ≤ (uncommented l).length := List.length_filter_le _ _
    have hl : strlen (removeSpace (uncommented l))
        ≤ (removeSpace (uncommented l)).length := length_cut_le _
    omega

theorem removeSpace_eq_nil_iff {t : Str} :
    removeSpace t = [] ↔ ∀ b ∈ t, b = space := by
  unfold removeSpace
  simp [List.filter_eq_nil_iff]

/-- Cutting a text at its first `#` keeps a part of what `strchr` saw. -/
theorem takeWhile_cut {l : Str} {c : UInt8} (h : c ∈ cut l) :
    (cut l).takeWhile (· ≠ c) = l.takeWhile (· ≠ c) := by
  obtain ⟨a, b, heq, ha⟩ := List.eq_append_cons_of_mem h
  have hl : l = a ++ c :: (b ++ l.dropWhile (· ≠ nul)) := by
    conv => lhs; rw [← List.takeWhile_append_dropWhile (p := (· ≠ nul)) (l := l)]
    show cut l ++ _ = _
    rw [heq, List.append_assoc]
    rfl
  rw [heq, takeWhile_at ha]
  conv => rhs; rw [hl, takeWhile_at ha]

/-- What stands before the first `c`, as a prefix. -/
theorem take_takeWhile_length (l : Str) (c : UInt8) :
    l.take (l.takeWhile (· ≠ c)).length = l.takeWhile (· ≠ c) :=
  (List.prefix_iff_eq_take.mp (List.takeWhile_prefix _)).symm

/-- A character that occurs has less than the whole text before it. -/
theorem takeWhile_length_lt {s : Str} {c : UInt8} (h : c ∈ s) :
    (s.takeWhile (· ≠ c)).length < s.length := by
  have hdrop : s.dropWhile (· ≠ c) ≠ [] := by
    intro hnil
    simpa using (List.dropWhile_eq_nil_iff.mp hnil) c h
  have hsum := congrArg List.length
    (List.takeWhile_append_dropWhile (p := (· ≠ c)) (l := s))
  have hpos := List.length_pos_iff.mpr hdrop
  rw [List.length_append] at hsum
  omega

/-- What `cutComment` leaves of a line. -/
theorem cutComment_eq {l : Str} (h : ¬ (hash ∈ cut l ∧ maxline ≤ strlen l)) :
    cutComment l
      = .ok (if hash ∈ cut l ∧ uncommented l = [] then none
          else some (uncommented l)) := by
  unfold cutComment
  by_cases hmem : hash ∈ cut l
  · obtain ⟨rest, hrest⟩ := strchr_of_mem hmem
    have hfit : strlen l < maxline := by
      by_contra hle
      exact h ⟨hmem, Nat.not_lt.mp hle⟩
    have hlen : strOffsetL (cut l) (some (hash :: rest))
        = (l.takeWhile (· ≠ hash)).length := by
      rw [← takeWhile_cut hmem]
      exact offsetLoop_eq (nul_notMem_cut l) hmem
    have hun : uncommented l = l.takeWhile (· ≠ hash) := if_pos hmem
    rw [hrest]
    dsimp only
    rw [strcpy, if_pos hfit, ok_bind, hlen, substr_of_le (Nat.zero_le _),
      ok_bind, List.drop_zero, take_takeWhile_length, ← hun]
    simp [hmem, List.isEmpty_iff]
  · have hnone : strchr l hash = none := if_neg hmem
    have hun : uncommented l = l := if_neg hmem
    rw [hnone, if_neg fun hboth => hmem hboth.1, hun]

/-- The last part of the loop's body, on a text that fits. -/
theorem splitLine_eq {u : Str} (hne : u ≠ []) (hfit : strlen u < maxline) :
    (do
      let fileBuff ← strcpy maxline u
      let leftLen := strOffsetL fileBuff (strchr fileBuff colon)
      let headPort ← substr u 0 leftLen
      let tailPort ← substr u (leftLen + 1) u.length
      .ok (u, some (headPort, tailPort)) : Except Fault _)
      = .ok (u, some (splitPair u)) := by
  rw [strcpy, if_pos hfit, ok_bind]
  dsimp only
  rw [strOffsetL_strchr]
  unfold splitPair
  dsimp only
  generalize hleft : (if colon ∈ cut u then
    ((cut u).takeWhile (· ≠ colon)).length else 0) = leftLen
  have hroom : leftLen + 1 ≤ u.length := by
    have hpos := List.length_pos_iff.mpr hne
    have hcut := length_cut_le u
    rw [← hleft]
    split
    · next hc =>
      have hlt := takeWhile_length_lt hc
      omega
    · omega
  have htail : (u.drop (leftLen + 1)).take u.length = u.drop (leftLen + 1) :=
    List.take_of_length_le (by rw [List.length_drop]; omega)
  rw [substr_of_le (Nat.zero_le _), ok_bind, substr_of_le hroom, ok_bind,
    List.drop_zero, htail]

/-- The body of the loop on a line that is not faulty. -/
theorem loadLine_of_clean {l : Str} (h : ¬ Faulty l) :
    loadLine l = .ok (kept l, pairOf l) := by
  have hlong : ¬ Overlong l := fun hl => h (.inl hl)
  unfold loadLine
  rw [cutComment_eq fun hl => hlong (.inl hl)]
  by_cases hun : uncommented l = []
  · have hkept : kept l = l := if_pos hun
    have hpair : pairOf l = none := if_pos hun
    rw [hkept, hpair]
    by_cases hmem : hash ∈ cut l
    · rw [if_pos ⟨hmem, hun⟩]
      rfl
    · have hl : l = [] := by
        rw [← hun]
        exact (if_neg hmem).symm
      rw [if_neg fun hboth => hmem hboth.1, hun, hl]
      rfl
  · have hkept : kept l = removeSpace (uncommented l) := if_neg hun
    have hpair : pairOf l = some (splitPair (removeSpace (uncommented l))) :=
      if_neg hun
    have hfit : strlen (removeSpace (uncommented l)) < maxline := by
      by_contra hle
      exact hlong (.inr ⟨hun, Nat.not_lt.mp hle⟩)
    have hne : removeSpace (uncommented l) ≠ [] := fun hnil =>
      h (.inr ⟨hun, removeSpace_eq_nil_iff.mp hnil⟩)
    have hempty : (uncommented l).isEmpty = false := by
      rw [← Bool.not_eq_true, List.isEmpty_iff]
      exact hun
    rw [if_neg fun hboth => hun hboth.2, ok_bind, hkept, hpair]
    dsimp only
    rw [hempty, if_neg Bool.false_ne_true]
    exact splitLine_eq hne hfit

/-- The body of the loop fails on a faulty line. -/
theorem loadLine_of_faulty {l : Str} (h : Faulty l) :
    ∃ e, loadLine l = .error e := by
  unfold loadLine
  by_cases hlong : hash ∈ cut l ∧ maxline ≤ strlen l
  · obtain ⟨rest, hrest⟩ := strchr_of_mem hlong.1
    refine ⟨.vectorRange, ?_⟩
    unfold cutComment strcpy
    rw [hrest]
    dsimp only
    rw [if_neg (Nat.not_lt.mpr hlong.2)]
    rfl
  · have hun : uncommented l ≠ [] := by
      rcases h with (hl | hl) | hl
      · exact absurd hl hlong
      · exact hl.1
      · exact hl.1
    have hempty : (uncommented l).isEmpty = false := by
      rw [← Bool.not_eq_true, List.isEmpty_iff]
      exact hun
    rw [cutComment_eq hlong, if_neg fun hboth => hun hboth.2, ok_bind]
    dsimp only
    rw [hempty, if_neg Bool.false_ne_true]
    by_cases hshort : strlen (removeSpace (uncommented l)) < maxline
    · -- nothing is left behind the spaces, and the value is taken from there
      have hcut : ¬ Overlong l := by
        rintro (hl | hl)
        · exact hlong hl
        · exact absurd hl.2 (Nat.not_le.mpr hshort)
      have hnil : removeSpace (uncommented l) = [] :=
        removeSpace_eq_nil_iff.mpr (h.resolve_left hcut).2
      rw [hnil]
      exact ⟨.substrRange, rfl⟩
    · refine ⟨.vectorRange, ?_⟩
      rw [strcpy, if_neg hshort]
      rfl

-- =============================================================== the loop

/-- A round of the loop that is not the last: the next line. -/
theorem body_of_line {l : Str} (hl : lf ∉ l) (hclean : ¬ Faulty l)
    (rest : Str) (ending : Ending) (buff : Str) (kvs : List (Str × Str)) :
    Load.body ⟨.fresh (l ++ lf :: rest) ending, buff, kvs⟩
      = .ok ⟨.fresh rest ending, kept l, kvs ++ (pairOf l).toList⟩ := by
  unfold Load.body
  dsimp only
  rw [FileStream.getline_line hl]
  dsimp only
  rw [loadLine_of_clean hclean, ok_bind]

/-- The round of the last line. -/
theorem body_of_last {l : Str} (hl : lf ∉ l) (hclean : ¬ Faulty l)
    (ending : Ending) (buff : Str) (kvs : List (Str × Str)) :
    Load.body ⟨.fresh l ending, buff, kvs⟩
      = .ok ⟨(FileStream.fresh l ending).runOut l.isEmpty, kept l,
          kvs ++ (pairOf l).toList⟩ := by
  unfold Load.body
  dsimp only
  rw [FileStream.getline_last hl]
  dsimp only
  rw [loadLine_of_clean hclean, ok_bind]

/-- The round of a faulty line. -/
theorem body_of_faulty {l : Str} (hfaulty : Faulty l) {f f' : FileStream}
    {buff : Str} (hget : f.getline buff = (f', l)) (kvs : List (Str × Str)) :
    ∃ e, Load.body ⟨f, buff, kvs⟩ = .error e := by
  obtain ⟨e, he⟩ := loadLine_of_faulty hfaulty
  refine ⟨e, ?_⟩
  unfold Load.body
  dsimp only
  rw [hget]
  dsimp only
  rw [he, error_bind]

/-- The loop goes over clean lines one a round, to the end of the
file. -/
theorem rounds_of_clean (text : Str) :
    ∀ (buff : Str) (kvs : List (Str × Str)),
      (∀ l ∈ lines text, ¬ Faulty l) →
      ∃ n s, Loop.rounds Load.more Load.body n
          ⟨.fresh text .endOfFile, buff, kvs⟩ = some (.ok s)
        ∧ s.tmpPathKV = kvs ++ (lines text).filterMap pairOf := by
  induction text using text_induction with
  | last l hl =>
      intro buff kvs hclean
      rw [lines_last hl] at hclean ⊢
      have hbody := body_of_last hl (hclean l (List.mem_singleton_self l))
        .endOfFile buff kvs
      refine ⟨1, _, (Loop.rounds_of_ok rfl hbody 0).trans
        (Loop.rounds_of_not rfl 0), ?_⟩
      cases h : pairOf l <;> simp [h]
  | line l rest hl ih =>
      intro buff kvs hclean
      rw [lines_of_line hl] at hclean ⊢
      obtain ⟨n, s, hs, hkvs⟩ := ih (kept l) (kvs ++ (pairOf l).toList)
        fun m hm => hclean m (List.mem_cons_of_mem _ hm)
      have hbody := body_of_line hl (hclean l (List.mem_cons_self ..)) rest
        .endOfFile buff kvs
      refine ⟨n + 1, s, (Loop.rounds_of_ok rfl hbody n).trans hs, ?_⟩
      rw [hkvs, List.append_assoc]
      cases h : pairOf l <;> simp [h]

/-- The loop fails at the first faulty line, whatever stands behind the
text. -/
theorem rounds_of_faulty (text : Str) (ending : Ending) :
    ∀ (buff : Str) (kvs : List (Str × Str)),
      (∃ l ∈ lines text, Faulty l) →
      ∃ n e, Loop.rounds Load.more Load.body n
          ⟨.fresh text ending, buff, kvs⟩ = some (.error e) := by
  induction text using text_induction with
  | last l hl =>
      rintro buff kvs ⟨m, hm, hfaulty⟩
      rw [lines_last hl, List.mem_singleton] at hm
      subst hm
      obtain ⟨e, he⟩ := body_of_faulty hfaulty
        (FileStream.getline_last hl ending buff) kvs
      exact ⟨1, e, Loop.rounds_of_error rfl he 0⟩
  | line l rest hl ih =>
      rintro buff kvs ⟨m, hm, hfaulty⟩
      by_cases hclean : Faulty l
      · obtain ⟨e, he⟩ := body_of_faulty hclean
          (FileStream.getline_line hl rest ending buff) kvs
        exact ⟨1, e, Loop.rounds_of_error rfl he 0⟩
      · rw [lines_of_line hl] at hm
        have hmrest : m ∈ lines rest := by
          rcases List.mem_cons.mp hm with rfl | hm
          · exact absurd hfaulty hclean
          · exact hm
        obtain ⟨n, e, he⟩ := ih (kept l) (kvs ++ (pairOf l).toList)
          ⟨m, hmrest, hfaulty⟩
        have hbody := body_of_line hl hclean rest ending buff kvs
        exact ⟨n + 1, e, (Loop.rounds_of_ok rfl hbody n).trans he⟩

/-- A text without faulty lines loads as the pairs its lines stand
for. -/
theorem loadFileTo_of_clean {text : Str} (h : ∀ l ∈ lines text, ¬ Faulty l) :
    ∃ n, loadFileTo n (.opens text .endOfFile)
      = some (.ok ((lines text).filterMap pairOf)) := by
  obtain ⟨n, s, hs, hkvs⟩ := rounds_of_clean text [] [] h
  refine ⟨n, ?_⟩
  show (Loop.rounds Load.more Load.body n
    ⟨.fresh text .endOfFile, [], []⟩).map _ = _
  rw [hs, Option.map_some]
  show some (Except.ok s.tmpPathKV) = _
  rw [hkvs, List.nil_append]

/-- A text with a faulty line fails to load. -/
theorem loadFileTo_of_faulty {text : Str} (ending : Ending)
    (h : ∃ l ∈ lines text, Faulty l) :
    ∃ n e, loadFileTo n (.opens text ending) = some (.error e) := by
  obtain ⟨n, e, he⟩ := rounds_of_faulty text ending [] [] h
  refine ⟨n, e, ?_⟩
  show (Loop.rounds Load.more Load.body n ⟨.fresh text ending, [], []⟩).map _
    = _
  rw [he]
  rfl

/-- What loading comes to does not depend on the number of rounds. -/
theorem loadFileTo_unique {n m : Nat} {file : FileBehaviour}
    {r r' : Except Fault (List (Str × Str))} (h : loadFileTo n file = some r)
    (h' : loadFileTo m file = some r') : r = r' := by
  obtain ⟨s, hs, rfl⟩ := Option.map_eq_some_iff.mp h
  obtain ⟨s', hs', rfl⟩ := Option.map_eq_some_iff.mp h'
  rw [Loop.rounds_unique hs hs']

end TrashyServer.Config
