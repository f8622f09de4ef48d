/-
What the verdict of `parse_requestline` depends on.

The function is handed a pointer into the whole text and copies from
there to the NUL, so its search for a space and a tab runs on over
everything that has arrived behind the line.

# The first line, and the ones behind it

On a fresh object only a CR at index 9 completes a line, and the cursor
is then at 11 (`checkLine_first`). Behind it `check_line` completes a
line at its very first byte or not at all: an LF there whose
predecessor is a CR (`checkLine_behind_iff`). Those two bytes are no
part of an occurrence, so of all lines behind the first only the first
of them can be refused (`refused_behind`).

Hence the exact answer for one text (`refused_iff`): where the line
itself holds a space and a tab, the refusal is that of the line behind
it; where it does not, it is up to the rest of the text. Two texts with
the same line are told apart by exactly that (`requestline_refused_iff`).
-/
import TrashyServer.Parse.Proofs.Accept

namespace TrashyServer.Parse

-- ============================================================ the verdict

/-- A space and a tab somewhere from `i` on. -/
def BlankTab (w : Str) (i : Nat) : Prop :=
  bytes " \t" <:+: cut (w.drop i)

instance (w : Str) (i : Nat) : Decidable (BlankTab w i) := by
  unfold BlankTab
  infer_instance

/-- `parse_requestline` takes its `BAD_REQUEST` return on a line handed
to it in this call or before. -/
def Refused (offEnd : Nat → HttpCode) (content : Str) (s : HttpParse) : Prop :=
  ∃ tmp ∈ (parseRequest (lineParsers offEnd) content .chksHeader s).2.handed,
    Search.find (bytes " \t") (cut (content.drop tmp)) = none

/-- A line that ends right where the one before it does. -/
def LineBehind (w : Str) (e : Nat) : Prop :=
  charAt w (e - 1) = cr ∧ charAt w e = lf ∧ e < seen w

instance (w : Str) (e : Nat) : Decidable (LineBehind w e) := by
  unfold LineBehind
  infer_instance

theorem find_blankTab {w : Str} {i : Nat} :
    Search.find (bytes " \t") (cut (w.drop i)) = none ↔ ¬ BlankTab w i :=
  Search.find_eq_none_iff

theorem seen_le_strlen (w : Str) : seen w ≤ strlen w := by
  have := toInt_le (strlen w)
  unfold seen
  omega

theorem take_succ {w : Str} {i : Nat} (hi : i < w.length) :
    w.take (i + 1) = w.take i ++ [charAt w i] := by
  unfold charAt
  rw [List.getD_eq_getElem?_getD, List.getElem?_eq_getElem hi,
    Option.getD_some, List.take_append_getElem]

/-- The first byte behind a position is read there. -/
theorem cut_drop {w : Str} {i : Nat} (hi : i < strlen w) :
    cut (w.drop i) = charAt w i :: cut (w.drop (i + 1)) := by
  have hpre : cut w <+: w := List.takeWhile_prefix _
  have hlen : i < w.length := Nat.lt_of_lt_of_le hi hpre.length_le
  have hchar : charAt w i = w[i] := by
    unfold charAt
    rw [List.getD_eq_getElem?_getD, List.getElem?_eq_getElem hlen,
      Option.getD_some]
  have hne : charAt w i ≠ nul := by
    rw [hchar, ← List.IsPrefix.getElem hpre hi]
    intro h
    exact nul_notMem_cut w (h ▸ List.getElem_mem hi)
  rw [List.drop_eq_getElem_cons hlen, ← hchar]
  unfold cut
  rw [List.takeWhile_cons, if_pos (by simpa using hne)]

/-- A byte that is neither of the two may be skipped. -/
theorem blankTab_skip {w : Str} {i : Nat} (hi : i < strlen w)
    (hb : charAt w i ≠ 32) : BlankTab w i ↔ BlankTab w (i + 1) := by
  unfold BlankTab
  rw [cut_drop hi, List.infix_cons_iff]
  refine ⟨fun h => h.resolve_left fun hp => ?_, Or.inr⟩
  exact hb (List.cons_prefix_cons.mp hp).1.symm

-- ============================================================== check_line

/-- On a fresh object a line is completed by the CR at index 9. -/
theorem checkLine_first {w : Str} {e : Nat}
    (h : checkLine w 0 = (.lineOk, e)) :
    e = 11 ∧ 11 ≤ seen w ∧ charAt w 9 = cr := by
  rcases break_or_plain w 0 (seen w) with ⟨i, h0, hi, hb, hpl⟩ | hpl
  · rw [checkLine_of_break h0 hi hb hpl] at h
    unfold verdict at h
    split at h
    · next hcr =>
      split at h
      · cases h
      · split at h
        · next hend hnine =>
          have hlf : lf.toNat = 10 := rfl
          have hi9 : i = 9 := by omega
          cases h
          subst hi9
          exact ⟨rfl, by omega, hcr⟩
        · cases h
    · split at h
      · next hprev =>
        -- the CR before the LF would have been the first break
        have hplain := hpl (i - 1) (Nat.zero_le _) (by omega)
        exact absurd hprev.2 (not_break hplain).1
      · cases h
  · rw [checkLine_of_plain hpl] at h
    cases h

/-- Further on, a line is completed where it starts or not at all. -/
theorem checkLine_behind_iff {w : Str} {c e : Nat} (hc : 11 ≤ c) :
    checkLine w c = (.lineOk, e) ↔ LineBehind w c ∧ e = c + 2 := by
  constructor
  · intro h
    rcases break_or_plain w c (seen w) with ⟨i, hci, hi, hb, hpl⟩ | hpl
    · rw [checkLine_of_break hci hi hb hpl] at h
      unfold verdict at h
      have hlf : lf.toNat = 10 := rfl
      split at h
      · split at h
        · cases h
        · split at h
          · omega
          · cases h
      · next hcr =>
        split at h
        · next hprev =>
          have hic : i = c := by
            by_cases hlt : c < i
            · have hplain := hpl (i - 1) (by omega) (by omega)
              exact absurd hprev.2 (not_break hplain).1
            · omega
          subst hic
          have hbyte : charAt w i = lf := by simpa [isBreak, hcr] using hb
          cases h
          exact ⟨⟨hprev.2, hbyte, hi⟩, rfl⟩
        · cases h
    · rw [checkLine_of_plain hpl] at h
      cases h
  · rintro ⟨⟨hcr, hlf, hi⟩, rfl⟩
    have hb : isBreak (charAt w c) = true := by
      rw [hlf]
      rfl
    rw [checkLine_of_break (Nat.le_refl c) hi hb fun j hj hjc => by omega]
    unfold verdict
    rw [if_neg (by rw [hlf]; exact lf_ne_cr), if_pos ⟨by omega, hcr⟩]

-- ================================================================ one call

/-- Nothing handed out so far has been refused. -/
def Clean (content : Str) (s : HttpParse) : Prop :=
  ∀ tmp ∈ s.handed, BlankTab content tmp

/-- A complete line is refused, or what is behind it may be; off the
end of `parse_requestline` with `BAD_REQUEST` the call is over. -/
theorem refused_of_ok (offEnd : Nat → HttpCode) {content : Str}
    {s : HttpParse} {cur : Nat} (hs : Clean content s)
    (h : checkLine content s.mCheckCur = (.lineOk, cur)) :
    Refused offEnd content s
      ↔ ¬ BlankTab content s.mStartLine
        ∨ (offEnd s.mStartLine ≠ .badRequest
          ∧ Refused offEnd content (s.lineOk cur)) := by
  by_cases hbt : BlankTab content s.mStartLine
  · obtain ⟨i, hi⟩ := Search.exists_find hbt
    have hline : (lineParsers offEnd).parseRequestline content s.mStartLine
        .chksHeader = offEnd s.mStartLine := by
      simp only [lineParsers, parseRequestline, hi]
    have hcall := parseRequest_of_ok (lineParsers offEnd) .chksHeader h
    simp only [hline] at hcall
    by_cases hoff : offEnd s.mStartLine = .badRequest
    · -- the call is over and the line was not refused
      rw [hoff] at hcall
      refine iff_of_false ?_ ?_
      · rintro ⟨tmp, htmp, hnone⟩
        rw [hcall] at htmp
        rcases List.mem_append.mp htmp with htmp | htmp
        · exact find_blankTab.mp hnone (hs tmp htmp)
        · rw [List.mem_singleton.mp htmp] at hnone
          exact find_blankTab.mp hnone hbt
      · rintro (hno | ⟨hno, -⟩)
        · exact hno hbt
        · exact hno hoff
    · have hmore : parseRequest (lineParsers offEnd) content .chksHeader s
          = parseRequest (lineParsers offEnd) content .chksHeader
              (s.lineOk cur) := by
        rw [hcall]
        split
        · next hbad => exact absurd hbad hoff
        · rfl
      unfold Refused
      rw [hmore]
      simp [hbt, hoff]
  · -- the line is refused here
    have hnone := find_blankTab.mpr hbt
    have hline : (lineParsers offEnd).parseRequestline content s.mStartLine
        .chksHeader = .badRequest := by
      simp only [lineParsers, parseRequestline, hnone]
    have hcall := parseRequest_of_ok (lineParsers offEnd) .chksHeader h
    simp only [hline] at hcall
    refine iff_of_true ⟨s.mStartLine, ?_, hnone⟩ (Or.inl hbt)
    rw [hcall]
    exact List.mem_append_right _ (List.mem_singleton_self _)

/-- Without a complete line nothing more is handed out. -/
theorem not_refused_of_not_ok (offEnd : Nat → HttpCode) {content : Str}
    {s : HttpParse} {st : LineStatus} {cur : Nat} (hs : Clean content s)
    (h : checkLine content s.mCheckCur = (st, cur)) (hst : st ≠ .lineOk) :
    ¬ Refused offEnd content s := by
  have hcall : (parseRequest (lineParsers offEnd) content .chksHeader s).2
      = { s with mCheckCur := cur } := by
    cases st with
    | lineOk => exact absurd rfl hst
    | lineOpen => rw [parseRequest_of_open _ _ h]
    | lineBad => rw [parseRequest_of_bad _ _ h]
  rintro ⟨tmp, htmp, hnone⟩
  rw [hcall] at htmp
  exact find_blankTab.mp hnone (hs tmp htmp)

/-- Of the lines behind the first, only the first can be refused: the
others start behind a LF and a CR, where the same bytes follow. -/
theorem refused_behind (offEnd : Nat → HttpCode) {w : Str} {c : Nat}
    {l : List Nat} {o : List LineOk} (hc : 11 ≤ c)
    (hclean : ∀ tmp ∈ l, BlankTab w tmp) :
    Refused offEnd w ⟨c, c, l, o⟩ ↔ LineBehind w c ∧ ¬ BlankTab w c := by
  by_cases hline : LineBehind w c
  · have hok := (checkLine_behind_iff hc).mpr ⟨hline, rfl⟩
    rw [refused_of_ok (s := ⟨c, c, l, o⟩) offEnd hclean hok]
    by_cases hbt : BlankTab w c
    · have hclean' : ∀ tmp ∈ l ++ [c], BlankTab w tmp := by
        intro tmp htmp
        rcases List.mem_append.mp htmp with htmp | htmp
        · exact hclean tmp htmp
        · rw [List.mem_singleton.mp htmp]
          exact hbt
      have hnext := refused_behind offEnd (w := w) (c := c + 2) (l := l ++ [c])
        (o := o ++ [⟨c + 2, c + 2⟩]) (by omega) hclean'
      refine iff_of_false ?_ fun h => h.2 hbt
      rintro (hno | ⟨-, href⟩)
      · exact hno hbt
      · -- a third line stands behind LF CR
        obtain ⟨⟨hcr, -, hend⟩, hno⟩ := hnext.mp href
        have hseen := seen_le_strlen w
        refine hno ((blankTab_skip (by omega) ?_).mp
          ((blankTab_skip (by omega) ?_).mp hbt))
        · rw [show c + 1 = c + 2 - 1 by omega, hcr]
          exact cr_ne_blank
        · rw [hline.2.1]
          exact lf_ne_blank
    · exact iff_of_true (Or.inl hbt) ⟨hline, hbt⟩
  · refine iff_of_false ?_ fun h => hline h.1
    cases hcl : checkLine w c with
    | mk st cur =>
        refine not_refused_of_not_ok offEnd hclean hcl ?_
        rintro rfl
        exact hline ((checkLine_behind_iff hc).mp hcl).1
termination_by seen w + 2 - c
decreasing_by
  have := hline.2.2
  omega

-- =============================================================== two texts

/-- A text up to a position, and the C string from there on. -/
theorem cut_eq_take_append {w : Str} {i : Nat} (hi : i ≤ strlen w) :
    cut w = w.take i ++ cut (w.drop i) := by
  induction i with
  | zero => rfl
  | succ i ih =>
      have hlen := length_cut_le w
      have hiw : i < w.length := by
        unfold strlen at hi
        omega
      rw [ih (by omega), cut_drop hi, take_succ hiw, List.append_assoc]
      rfl

/-- A blank and a tab stand in the line, or from the byte behind its CR
on. -/
theorem blankTab_first {w : Str} {e : Nat}
    (h : checkLine w 0 = (.lineOk, e)) :
    BlankTab w 0 ↔ bytes " \t" <:+: w.take e ∨ BlankTab w (e - 1) := by
  obtain ⟨rfl, hseen, hcr⟩ := checkLine_first h
  have hlen := length_cut_le w
  have hstr := seen_le_strlen w
  have hw : 11 ≤ w.length := by
    unfold strlen at hstr
    omega
  have hline : w.take 11 = w.take 9 ++ cr :: [charAt w 10] := by
    rw [take_succ (by omega), take_succ (by omega), hcr]
    simp
  have hcut : cut (w.drop 0) = w.take 9 ++ cr :: cut (w.drop 10) := by
    rw [List.drop_zero, cut_eq_take_append (i := 9) (by omega),
      cut_drop (by omega), hcr]
  have hone : ¬ bytes " \t" <:+: [charAt w 10] := fun h => by
    have := h.length_le
    simp [bytes] at this
  unfold BlankTab
  rw [hcut, hline, Search.infix_append_cons_iff (by decide) (by decide),
    Search.infix_append_cons_iff (by decide) (by decide)]
  simp [hone]

/-- When a fresh object refuses a text in `parse_requestline`: the line
has no blank and tab, and nor has what is behind it; or the line has,
the function did not run off its end with `BAD_REQUEST`, and the line
right behind it has none. -/
theorem refused_iff (offEnd : Nat → HttpCode) {w : Str} {e : Nat}
    (h : checkLine w 0 = (.lineOk, e)) :
    Refused offEnd w .new
      ↔ if bytes " \t" <:+: w.take e then
          offEnd 0 ≠ .badRequest ∧ LineBehind w e ∧ ¬ BlankTab w e
        else ¬ BlankTab w (e - 1) := by
  have hclean : Clean w .new := fun tmp htmp => by cases htmp
  rw [refused_of_ok offEnd hclean h]
  have hfirst := blankTab_first h
  obtain ⟨rfl, hseen, -⟩ := checkLine_first h
  change ¬ BlankTab w 0 ∨ (offEnd 0 ≠ .badRequest
    ∧ Refused offEnd w ⟨11, 11, [0], [⟨11, 11⟩]⟩) ↔ _
  by_cases hbt : BlankTab w 0
  · have hbehind := refused_behind offEnd (w := w) (l := [0])
      (o := [⟨11, 11⟩]) (Nat.le_refl 11) fun tmp htmp => by
        rw [List.mem_singleton.mp htmp]
        exact hbt
    rw [hbehind]
    split
    · simp [hbt]
    · next hno =>
      have hrest := (hfirst.mp hbt).resolve_left hno
      refine iff_of_false ?_ fun h => h hrest
      rintro (h | ⟨-, ⟨hcr, -, hend⟩, h⟩)
      · exact h hbt
      · -- the CR before a second line is skipped
        have hstr := seen_le_strlen w
        refine h ((blankTab_skip (by omega) ?_).mp hrest)
        rw [hcr]
        exact cr_ne_blank
  · have hno : ¬ (bytes " \t" <:+: w.take 11 ∨ BlankTab w (11 - 1)) :=
      fun h => hbt (hfirst.mpr h)
    rw [if_neg fun h => hno (Or.inl h)]
    exact iff_of_true (Or.inl hbt) fun h => hno (Or.inr h)

/-- When the verdict of `parse_requestline` looks at the request line
only. For every two texts with the same first line: a fresh object
reaches the `BAD_REQUEST` return on both or on neither, whatever the
function returns off its end, exactly when what is behind the line does
not tell them apart: where the line has a blank and a tab, both or
neither have a second line right behind it with none from there on;
where it has not, both or neither have them somewhere behind the
line's CR. -/
theorem requestline_refused_iff {c d : Str} {e : Nat}
    (hc : checkLine c HttpParse.new.mCheckCur = (.lineOk, e))
    (hd : checkLine d HttpParse.new.mCheckCur = (.lineOk, e))
    (hcd : c.take e = d.take e) :
    (∀ offEnd, Refused offEnd c .new ↔ Refused offEnd d .new)
      ↔ if bytes " \t" <:+: c.take e then
          (LineBehind c e ∧ ¬ BlankTab c e
            ↔ LineBehind d e ∧ ¬ BlankTab d e)
        else (BlankTab c (e - 1) ↔ BlankTab d (e - 1)) := by
  have hiff : ∀ offEnd, (Refused offEnd c .new ↔ Refused offEnd d .new) ↔ _ :=
    fun offEnd => iff_congr (refused_iff offEnd hc) (refused_iff offEnd hd)
  simp only [hiff, ← hcd]
  split
  · constructor
    · intro h
      have hgo := h fun _ => .noRequest
      simpa using hgo
    · intro h offEnd
      rw [h]
  · constructor
    · intro h
      exact not_iff_not.mp (h fun _ => .noRequest)
    · intro h offEnd
      rw [h]

/-- The same line, and a blank and a tab behind it or not. -/
theorem requestline_refused_tail :
    (∀ offEnd, Refused offEnd (bytes "GET / HTT\r\nA") .new
        ↔ Refused offEnd (bytes "GET / HTT\r\nA \t") .new)
      ↔ if bytes " \t" <:+: (bytes "GET / HTT\r\nA").take 11 then
          (LineBehind (bytes "GET / HTT\r\nA") 11
              ∧ ¬ BlankTab (bytes "GET / HTT\r\nA") 11
            ↔ LineBehind (bytes "GET / HTT\r\nA \t") 11
              ∧ ¬ BlankTab (bytes "GET / HTT\r\nA \t") 11)
        else (BlankTab (bytes "GET / HTT\r\nA") (11 - 1)
          ↔ BlankTab (bytes "GET / HTT\r\nA \t") (11 - 1)) :=
  requestline_refused_iff (by decide) (by decide) (by decide)

/-- They share the line and differ in the verdict. -/
theorem requestline_reads_on :
    ∃ c d e, checkLine c HttpParse.new.mCheckCur = (.lineOk, e)
      ∧ checkLine d HttpParse.new.mCheckCur = (.lineOk, e)
      ∧ c.take e = d.take e
      ∧ ∀ offEnd, Refused offEnd c .new ∧ ¬ Refused offEnd d .new := by
  have hc : checkLine (bytes "GET / HTT\r\nA") 0 = (.lineOk, 11) := by decide
  have hd : checkLine (bytes "GET / HTT\r\nA \t") 0 = (.lineOk, 11) := by
    decide
  refine ⟨_, _, 11, hc, hd, by decide, fun offEnd => ⟨?_, ?_⟩⟩
  · rw [refused_iff _ hc, if_neg (by decide)]
    decide
  · rw [refused_iff _ hd, if_neg (by decide)]
    decide

end TrashyServer.Parse
