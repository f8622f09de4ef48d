/-
What one `check_line` decides, and why it does not matter how the text
arrives.

# The decision

`check_line` looks at the first CR or LF at or behind the cursor among
the `seen` bytes of the text and at nothing else (`checkLine_of_break`,
`checkLine_of_plain`): `verdict` is its answer there, and a text without
one is open up to its end. The loop is opened once, in the two lemmas
that say so.

# Arrival in pieces

A prefix of a text shares its bytes, so its first break is the text's
own; the one decision that reads the end of the text is the CR that is
the last byte, and it answers `LINE_OPEN` without moving the cursor.
Hence (`checkLine_isPrefix`): an answer other than open is the text's
answer too, and after an answer other than `LINE_OK` the text is
scanned from the old cursor exactly as from the new one. `scan_isPrefix`
lifts this to a whole scan and `scan_chunks` to any number of prefixes.
-/
import TrashyServer.Parse.Model
import Mathlib.Data.Nat.Find

namespace TrashyServer.Parse

-- ========================================================== the decision

/-- CR or LF. -/
def isBreak (b : UInt8) : Bool := b = cr || b = lf

/-- How many bytes of a text `check_line` looks at: `end_cur`. -/
def seen (w : Str) : Nat := (toInt (strlen w)).toNat

/-- `check_line`'s answer when the first break is at `i` and the text
ends at `e`. -/
def verdict (w : Str) (e i : Nat) : LineStatus × Nat :=
  if charAt w i = cr then
    if i + 1 = e then (.lineOpen, i)
    else if i + 1 = lf.toNat then (.lineOk, i + 2)
    else (.lineBad, i)
  else if 1 < i ∧ charAt w (i - 1) = cr then (.lineOk, i + 2)
  else (.lineBad, i)

/-- No break at or behind `c` and before `d`. -/
def Plain (w : Str) (c d : Nat) : Prop :=
  ∀ j, c ≤ j → j < d → isBreak (charAt w j) = false

/-- A byte that is no break is neither CR nor LF. -/
theorem not_break {b : UInt8} (h : isBreak b = false) : b ≠ cr ∧ b ≠ lf := by
  simpa [isBreak] using h

/-- The loop over plain bytes moves the cursor and nothing else. -/
theorem checkLineLoop_plain {w : Str} {endCur : Int} {n m c : Nat}
    (h : Plain w c (c + m)) :
    checkLineLoop w endCur (n + m) c = checkLineLoop w endCur n (c + m) := by
  induction m generalizing c with
  | zero => rfl
  | succ m ih =>
      obtain ⟨hcr, hlf⟩ := not_break (h c (Nat.le_refl c) (by omega))
      rw [← Nat.add_assoc, checkLineLoop, if_neg hcr, if_neg hlf,
        ih fun j hj hjm => h j (by omega) (by omega)]
      congr 1
      omega

/-- Without a break the text is open and the cursor at its end. -/
theorem checkLine_of_plain {w : Str} {c : Nat} (h : Plain w c (seen w)) :
    checkLine w c = (.lineOpen, max c (seen w)) := by
  have hn : (toInt (strlen w) - c).toNat = 0 + (seen w - c) := by
    unfold seen
    omega
  rw [checkLine_eq, hn,
    checkLineLoop_plain fun j hj hjm => h j hj (by omega), checkLineLoop]
  congr 1
  omega

/-- The first break decides. -/
theorem checkLine_of_break {w : Str} {c i : Nat} (hci : c ≤ i)
    (hi : i < seen w) (hb : isBreak (charAt w i) = true) (h : Plain w c i) :
    checkLine w c = verdict w (seen w) i := by
  have hn : (toInt (strlen w) - c).toNat
      = (seen w - i - 1 + 1) + (i - c) := by
    unfold seen at hi ⊢
    omega
  have hend : ((i : Int) + 1 = toInt (strlen w)) ↔ i + 1 = seen w := by
    unfold seen at hi ⊢
    omega
  rw [checkLine_eq, hn, checkLineLoop_plain fun j hj hjm => h j hj (by omega),
    Nat.add_sub_cancel' hci, checkLineLoop]
  unfold verdict
  simp only [hend]
  by_cases hcr : charAt w i = cr
  · rw [if_pos hcr, if_pos hcr]
  · have hlf : charAt w i = lf := by
      simpa [isBreak, hcr] using hb
    rw [if_neg hcr, if_neg hcr, if_pos hlf]

/-- From any cursor there is a first break, or only plain bytes. -/
theorem break_or_plain (w : Str) (c e : Nat) :
    (∃ i, c ≤ i ∧ i < e ∧ isBreak (charAt w i) = true ∧ Plain w c i)
      ∨ Plain w c e := by
  by_cases h : ∃ i, c ≤ i ∧ i < e ∧ isBreak (charAt w i) = true
  · left
    obtain ⟨hci, hie, hb⟩ := Nat.find_spec h
    refine ⟨Nat.find h, hci, hie, hb, fun j hj hji => ?_⟩
    have hmin := Nat.find_min h hji
    cases hbj : isBreak (charAt w j) with
    | false => rfl
    | true => exact absurd ⟨hj, by omega, hbj⟩ hmin
  · right
    intro j hj hje
    cases hbj : isBreak (charAt w j) with
    | false => rfl
    | true => exact absurd ⟨j, hj, hje, hbj⟩ h

/-- Plain bytes may be skipped before a scan. -/
theorem checkLine_skip {w : Str} {c d : Nat} (hcd : c ≤ d)
    (hd : d ≤ max c (seen w)) (h : Plain w c d) :
    checkLine w c = checkLine w d := by
  have hjoin : ∀ {e}, Plain w d e → Plain w c e := fun hde j hj hje => by
    by_cases hjd : j < d
    · exact h j hj hjd
    · exact hde j (by omega) hje
  rcases break_or_plain w d (seen w) with ⟨i, hdi, hi, hb, hpl⟩ | hpl
  · rw [checkLine_of_break (by omega) hi hb (hjoin hpl),
      checkLine_of_break hdi hi hb hpl]
  · rw [checkLine_of_plain (hjoin hpl), checkLine_of_plain hpl]
    congr 1
    omega

-- ====================================================== prefixes of a text

/-- A text `check_line` reads as it stands: free of NUL, and short
enough that the cursor fits an `int`. -/
structure Readable (w : Str) : Prop where
  nulFree : nul ∉ w
  short : w.length < 2 ^ 31 - 2

theorem Readable.seen_eq {w : Str} (h : Readable w) : seen w = w.length := by
  have := h.short
  rw [seen, strlen_of_nulFree h.nulFree, toInt_of_lt (by omega)]
  exact Int.toNat_natCast _

theorem Readable.of_isPrefix {p w : Str} (h : Readable w) (hp : p <+: w) :
    Readable p :=
  ⟨fun hm => h.nulFree (hp.subset hm), by
    have := hp.length_le
    have := h.short
    omega⟩

theorem charAt_isPrefix {p w : Str} (hp : p <+: w) {j : Nat}
    (hj : j < p.length) : charAt p j = charAt w j := by
  obtain ⟨t, rfl⟩ := hp
  unfold charAt
  rw [List.getD_eq_getElem?_getD, List.getD_eq_getElem?_getD,
    List.getElem?_append_left hj]

theorem plain_isPrefix {p w : Str} (hp : p <+: w) {c d : Nat}
    (hd : d ≤ p.length) (h : Plain p c d) : Plain w c d := fun j hj hjd => by
  rw [← charAt_isPrefix hp (by omega)]
  exact h j hj hjd

/-- What a prefix decides, the text decides: an answer other than
`LINE_OPEN` is the text's answer, and after one other than `LINE_OK`
the text may be scanned from either cursor. -/
theorem checkLine_isPrefix {p w : Str} (hw : Readable w) (hp : p <+: w)
    {c c' : Nat} {st : LineStatus} (h : checkLine p c = (st, c')) :
    (st ≠ .lineOpen → checkLine w c = (st, c'))
      ∧ (st ≠ .lineOk → checkLine w c = checkLine w c') := by
  have hsp := (hw.of_isPrefix hp).seen_eq
  have hsw := hw.seen_eq
  have hle := hp.length_le
  rcases break_or_plain p c (seen p) with ⟨i, hci, hi, hb, hpl⟩ | hpl
  · -- the prefix has a break, which is the text's first one
    have hplw : Plain w c i := plain_isPrefix hp (by omega) hpl
    have hbw : isBreak (charAt w i) = true := by
      rw [← charAt_isPrefix hp (by omega)]
      exact hb
    have hwv := checkLine_of_break hci (by omega) hbw hplw
    have hskip : c' = i → checkLine w c = checkLine w c' := fun hc' => by
      rw [hc']
      exact checkLine_skip hci (by omega) hplw
    rw [checkLine_of_break hci hi hb hpl] at h
    unfold verdict at h hwv
    rw [charAt_isPrefix hp (by omega : i < p.length)] at h
    by_cases hcr : charAt w i = cr
    · rw [if_pos hcr] at h hwv
      by_cases hend : i + 1 = seen p
      · rw [if_pos hend, Prod.mk.injEq] at h
        obtain ⟨rfl, rfl⟩ := h
        exact ⟨fun hne => absurd rfl hne, fun _ => hskip rfl⟩
      · rw [if_neg hend] at h
        rw [if_neg (by omega)] at hwv
        refine ⟨fun _ => hwv.trans h, fun hne => hskip ?_⟩
        split at h
        · exact absurd (congrArg Prod.fst h).symm hne
        · exact (congrArg Prod.snd h).symm
    · rw [if_neg hcr] at h hwv
      have hprev : 1 < i → charAt p (i - 1) = charAt w (i - 1) :=
        fun _ => charAt_isPrefix hp (by omega)
      have heq : (1 < i ∧ charAt p (i - 1) = cr)
          ↔ (1 < i ∧ charAt w (i - 1) = cr) :=
        and_congr_right fun h1 => by rw [hprev h1]
      simp only [heq] at h
      refine ⟨fun _ => hwv.trans h, fun hne => hskip ?_⟩
      split at h
      · exact absurd (congrArg Prod.fst h).symm hne
      · exact (congrArg Prod.snd h).symm
  · -- the prefix is open to its end
    rw [checkLine_of_plain hpl, Prod.mk.injEq] at h
    obtain ⟨rfl, rfl⟩ := h
    refine ⟨fun hne => absurd rfl hne, fun _ => ?_⟩
    refine checkLine_skip (Nat.le_max_left ..) (by omega) fun j hj hjd => ?_
    rw [← charAt_isPrefix hp (by omega)]
    exact hpl j hj (by omega)

-- ========================================================= a whole scan

theorem scan_of_ok {w : Str} {c c' : Nat} (h : checkLine w c = (.lineOk, c')) :
    scan w c = (c' :: (scan w c').1, (scan w c').2) := by
  rw [scan]
  split
  · next cur' hok =>
    rw [h, Prod.mk.injEq] at hok
    rw [hok.2]
  · next hno => rw [h] at hno; cases hno
  · next hno => rw [h] at hno; cases hno

theorem scan_of_not_ok {w : Str} {c c' : Nat} {st : LineStatus}
    (h : checkLine w c = (st, c')) (hst : st ≠ .lineOk) :
    scan w c = ([], st, c') := by
  rw [scan]
  split
  · next cur' hok => rw [h, Prod.mk.injEq] at hok; exact absurd hok.1 hst
  · next cur' hopen => rw [h, Prod.mk.injEq] at hopen; rw [hopen.1, hopen.2]
  · next cur' hbad => rw [h, Prod.mk.injEq] at hbad; rw [hbad.1, hbad.2]

/-- A scan depends on the cursor through its first answer only. -/
theorem scan_congr {w : Str} {c d : Nat} (h : checkLine w c = checkLine w d) :
    scan w c = scan w d := by
  cases hc : checkLine w c with
  | mk st c' =>
      rw [hc] at h
      by_cases hst : st = .lineOk
      · subst hst
        rw [scan_of_ok hc, scan_of_ok h.symm]
      · rw [scan_of_not_ok hc hst, scan_of_not_ok h.symm hst]

/-- A scan of a prefix is the start of the scan of the text, which goes
on from the cursor the prefix left; a bad line is where it ends. -/
theorem scan_isPrefix {p w : Str} (hw : Readable w) (hp : p <+: w) (c : Nat) :
    scan w c = ((scan p c).1 ++ (scan w (scan p c).2.2).1,
        (scan w (scan p c).2.2).2)
      ∧ ((scan p c).2.1 = .lineBad →
          (scan w (scan p c).2.2).2 = (scan p c).2) := by
  induction c using scan.induct p with
  | case1 c c' hok ih =>
      have hwok := (checkLine_isPrefix hw hp hok).1 (by simp)
      rw [scan_of_ok hok, scan_of_ok hwok]
      refine ⟨?_, ih.2⟩
      rw [List.cons_append]
      conv => lhs; rw [ih.1]
  | case2 c c' hopen =>
      rw [scan_of_not_ok hopen (by simp)]
      refine ⟨?_, fun h => by cases h⟩
      rw [List.nil_append]
      exact scan_congr ((checkLine_isPrefix hw hp hopen).2 (by simp))
  | case3 c c' hbad =>
      obtain ⟨hsame, hagain⟩ := checkLine_isPrefix hw hp hbad
      have hcur := hagain (by simp)
      rw [scan_of_not_ok hbad (by simp)]
      refine ⟨?_, fun _ => ?_⟩
      · rw [List.nil_append]
        exact scan_congr hcur
      · rw [scan_of_not_ok (hcur.symm.trans (hsame (by simp))) (by simp)]

/-- Any prefixes of a text, scanned one after the other and then the
text itself, give the scan of the text in one piece. -/
theorem scanEach_prefixes {w : Str} (hw : Readable w) :
    ∀ {ps : List Str} {c : Nat}, (∀ p ∈ ps, p <+: w) →
      (scanEach (ps ++ [w]) c).flatMap Prod.fst = (scan w c).1
        ∧ (∃ r, (scanEach (ps ++ [w]) c).getLast? = some r
            ∧ r.2 = (scan w c).2)
        ∧ ∀ r ∈ scanEach (ps ++ [w]) c,
            r.2.1 = .lineBad → (scan w c).2 = r.2 := by
  intro ps
  induction ps with
  | nil =>
      intro c _
      refine ⟨by simp [scanEach], ⟨scan w c, rfl, rfl⟩, fun r hr _ => ?_⟩
      rw [List.mem_singleton.mp hr]
  | cons p ps ih =>
      intro c hps
      obtain ⟨hsplit, hbad⟩ := scan_isPrefix hw (hps p (List.mem_cons_self ..)) c
      obtain ⟨hoks, ⟨r, hlast, hr⟩, hbads⟩ :=
        ih (c := (scan p c).2.2) fun q hq => hps q (List.mem_cons_of_mem _ hq)
      have htail : (scan w c).2 = (scan w (scan p c).2.2).2 := by
        conv => lhs; rw [hsplit]
      refine ⟨?_, ⟨r, ?_, hr.trans htail.symm⟩, fun r' hr' hb => ?_⟩
      · show (scan p c).1 ++ (scanEach (ps ++ [w]) _).flatMap Prod.fst = _
        rw [hoks]
        conv => rhs; rw [hsplit]
      · show (_ :: scanEach (ps ++ [w]) _).getLast? = some r
        rw [List.getLast?_cons, hlast]
        rfl
      · rcases List.mem_cons.mp hr' with rfl | hr'
        · exact htail.trans (hbad hb)
        · exact htail.trans (hbads r' hr' hb)

/-- Line scanning does not depend on how the bytes arrive. For every
NUL-free text shorter than 2^31 - 2 and every prefixes of it handed to
one object before the text itself, the cursors of the completed lines,
the last status and the last cursor are those of a fresh object given
the text in one piece; and a prefix with a bad line has it where the
text has. -/
theorem scan_chunks {w : Str} (hw : nul ∉ w) (hlen : w.length < 2 ^ 31 - 2)
    {ps : List Str} (hps : ∀ p ∈ ps, p <+: w) :
    (scanEach (ps ++ [w]) HttpParse.new.mCheckCur).flatMap Prod.fst
        = (scan w HttpParse.new.mCheckCur).1
      ∧ (∃ r, (scanEach (ps ++ [w]) HttpParse.new.mCheckCur).getLast? = some r
          ∧ r.2 = (scan w HttpParse.new.mCheckCur).2)
      ∧ ∀ r ∈ scanEach (ps ++ [w]) HttpParse.new.mCheckCur,
          r.2.1 = .lineBad → (scan w HttpParse.new.mCheckCur).2 = r.2 :=
  scanEach_prefixes ⟨hw, hlen⟩ hps

/-- Cut in the middle of the first line and between its CR and LF. -/
theorem scan_chunks_split :
    (scanEach ([bytes "GET /", bytes "GET / HTT\r"] ++ [bytes "GET / HTT\r\nA"])
        HttpParse.new.mCheckCur).flatMap Prod.fst
        = (scan (bytes "GET / HTT\r\nA") HttpParse.new.mCheckCur).1
      ∧ (∃ r, (scanEach ([bytes "GET /", bytes "GET / HTT\r"]
            ++ [bytes "GET / HTT\r\nA"]) HttpParse.new.mCheckCur).getLast?
              = some r
          ∧ r.2 = (scan (bytes "GET / HTT\r\nA") HttpParse.new.mCheckCur).2)
      ∧ ∀ r ∈ scanEach ([bytes "GET /", bytes "GET / HTT\r"]
            ++ [bytes "GET / HTT\r\nA"]) HttpParse.new.mCheckCur,
          r.2.1 = .lineBad →
            (scan (bytes "GET / HTT\r\nA") HttpParse.new.mCheckCur).2 = r.2 :=
  scan_chunks (by decide) (by decide) (by decide)

end TrashyServer.Parse
