/-
The lines of a run tile the text.

`parse_request` hands a line parser the position behind the previous
line, and the cursor that says where this line ends becomes the next
position. So over a whole run (any number of calls on one object, with
longer and longer texts) the positions handed out and the object's own
`m_start_line` are the cuts of one tiling, each at least two behind the
one before.

# The invariant

`Tiled n s`, for an object `s` that has seen a text of `n` bytes: the
cuts are in order, they are 0 and the cursors behind each line, and
`m_start_line ≤ m_check_cur ≤ n + 1`, behind each line as well. A
`LINE_OK` keeps it (`Tiled.line`), every other answer of `check_line`
moves the cursor alone (`Tiled.wait`), and a longer text leaves it as it
is (`Tiled.mono`). One call then keeps it whatever the line parsers
answer (`parseRequest_keeps`), and a run does by induction over the
calls.

The loop itself ends because `check_line` leaves the cursor at least
two further on, and no further than one past the text, whenever it
completes a line; that measure is in `parseRequest`.
-/
import TrashyServer.Lib.Tiles
import TrashyServer.Parse.Proofs.Accept

namespace TrashyServer.Parse

open Tiles

-- ================================================================ the run

/-- The calls of a run on one object: the text of each and the object it
leaves. -/
def shown (P : LineParsers) :
    List (Str × CheckStatus) → HttpParse → List (Str × HttpParse)
  | [], _ => []
  | (content, status) :: calls, s =>
      let r := parseRequest P content status s
      (content, r.2) :: shown P calls r.2

/-- The object a run leaves. -/
def afterCalls (P : LineParsers) :
    List (Str × CheckStatus) → HttpParse → HttpParse
  | [], s => s
  | (content, status) :: calls, s =>
      afterCalls P calls (parseRequest P content status s).2

-- ========================================================== the invariant

/-- The positions handed out and the one that is next. -/
def HttpParse.cuts (s : HttpParse) : List Nat := s.handed ++ [s.mStartLine]

/-- An object that has seen `n` bytes. -/
structure Tiled (n : Nat) (s : HttpParse) : Prop where
  start_le : s.mStartLine ≤ s.mCheckCur
  cur_le : s.mCheckCur ≤ n + 1
  cuts : Cuts 2 s.cuts
  joined : s.cuts = 0 :: s.lineOks.map LineOk.mCheckCur
  lineOks : ∀ l ∈ s.lineOks, l.mStartLine ≤ l.mCheckCur ∧ l.mCheckCur ≤ n + 1

theorem tiled_new (n : Nat) : Tiled n .new :=
  ⟨Nat.le_refl 0, Nat.zero_le _, Cuts.singleton 2 0, rfl,
    fun _ hmem => absurd hmem List.not_mem_nil⟩

theorem Tiled.mono {m n : Nat} {s : HttpParse} (h : Tiled m s) (hmn : m ≤ n) :
    Tiled n s := by
  have hcur := h.cur_le
  refine ⟨h.start_le, by omega, h.cuts, h.joined, ?_⟩
  intro l hl
  have hline := h.lineOks l hl
  exact ⟨hline.1, by omega⟩

/-- An answer leaves the cursor at the break, or two behind it. -/
theorem verdict_cur {w : Str} {e i c : Nat} {st : LineStatus}
    (h : verdict w e i = (st, c)) : c = i ∨ c = i + 2 := by
  unfold verdict at h
  split at h
  · split at h
    · cases h
      exact Or.inl rfl
    · split at h
      · cases h
        exact Or.inr rfl
      · cases h
        exact Or.inl rfl
  · split at h
    · cases h
      exact Or.inr rfl
    · cases h
      exact Or.inl rfl

/-- `check_line` never moves the cursor back, and leaves it where it was
or no further than one past the text. -/
theorem checkLine_cur {w : Str} {c c' : Nat} {st : LineStatus}
    (h : checkLine w c = (st, c')) : c ≤ c' ∧ c' ≤ max c (w.length + 1) := by
  have hlen := seen_le_length w
  rcases break_or_plain w c (seen w) with ⟨i, hci, hi, hb, hpl⟩ | hpl
  · rw [checkLine_of_break hci hi hb hpl] at h
    have := verdict_cur h
    omega
  · rw [checkLine_of_plain hpl] at h
    have hcur : max c (seen w) = c' := congrArg Prod.snd h
    omega

/-- A complete line adds one cut. -/
theorem Tiled.line {w : Str} {s : HttpParse} {cur : Nat}
    (h : Tiled w.length s)
    (hok : checkLine w s.mCheckCur = (.lineOk, cur)) :
    Tiled w.length (s.lineOk cur) := by
  have hcur := checkLine_cur hok
  have hline := checkLine_lineOk hok
  have hstart := h.start_le
  have hle := h.cur_le
  have hend : cur ≤ w.length + 1 := by omega
  have hgap : s.mStartLine + 2 ≤ cur := by omega
  refine ⟨Nat.le_refl cur, hend, h.cuts.snoc hgap, ?_, ?_⟩
  · show s.cuts ++ [cur]
      = 0 :: (s.lineOks ++ [LineOk.mk cur cur]).map LineOk.mCheckCur
    rw [h.joined, List.map_append]
    rfl
  · intro l hl
    rcases List.mem_append.mp hl with hl | hl
    · exact h.lineOks l hl
    · rw [List.mem_singleton.mp hl]
      exact ⟨Nat.le_refl cur, hend⟩

/-- Any other answer moves the cursor alone. -/
theorem Tiled.wait {w : Str} {s : HttpParse} {st : LineStatus} {cur : Nat}
    (h : Tiled w.length s) (hcl : checkLine w s.mCheckCur = (st, cur)) :
    Tiled w.length { s with mCheckCur := cur } := by
  have hcur := checkLine_cur hcl
  have hstart := h.start_le
  have hle := h.cur_le
  have hend : cur ≤ w.length + 1 := by omega
  exact ⟨Nat.le_trans hstart hcur.1, hend, h.cuts, h.joined, h.lineOks⟩

-- =============================================================== one call

/-- A call that completes a line is done, or goes on from behind it. -/
theorem parseRequest_line (P : LineParsers) {content : Str}
    (status : CheckStatus) {s : HttpParse} {cur : Nat}
    (h : checkLine content s.mCheckCur = (.lineOk, cur)) :
    (parseRequest P content status s).2 = s.lineOk cur
      ∨ (parseRequest P content status s).2
        = (parseRequest P content status (s.lineOk cur)).2 := by
  rw [parseRequest_of_ok P status h]
  cases status with
  | chksHeader =>
      show _ ∨ _
      cases P.parseRequestline content s.mStartLine .chksHeader with
      | badRequest => exact Or.inl rfl
      | _ => exact Or.inr rfl
  | chksRequestLine =>
      cases P.parseHeader content s.mStartLine with
      | badRequest => exact Or.inl rfl
      | getRequest => exact Or.inl rfl
      | _ => exact Or.inr rfl

/-- What the answers of `check_line` keep, a call keeps. -/
theorem parseRequest_keeps (P : LineParsers) {content : Str}
    (status : CheckStatus) {I : HttpParse → Prop}
    (line : ∀ {s cur}, I s →
      checkLine content s.mCheckCur = (.lineOk, cur) → I (s.lineOk cur))
    (wait : ∀ {s st cur}, I s → checkLine content s.mCheckCur = (st, cur) →
      I { s with mCheckCur := cur }) {s : HttpParse} (hs : I s) :
    I (parseRequest P content status s).2 := by
  cases hcl : checkLine content s.mCheckCur with
  | mk st cur =>
      cases st with
      | lineOpen =>
          rw [parseRequest_of_open P status hcl]
          exact wait hs hcl
      | lineBad =>
          rw [parseRequest_of_bad P status hcl]
          exact wait hs hcl
      | lineOk =>
          have hnext := line hs hcl
          rcases parseRequest_line P status hcl with hr | hr
          · rw [hr]
            exact hnext
          · rw [hr]
            exact parseRequest_keeps P status line wait hnext
termination_by strlen content + 2 - s.mCheckCur
decreasing_by
  have := checkLine_lineOk hcl
  show strlen content + 2 - cur < strlen content + 2 - s.mCheckCur
  omega

-- ================================================================== a run

/-- Texts that grow keep the object of a run tiled. -/
theorem shown_tiled (P : LineParsers) {calls : List (Str × CheckStatus)}
    (hgrow : (calls.map Prod.fst).IsChain (· <+: ·)) {n : Nat}
    {s : HttpParse} (hs : Tiled n s)
    (hfirst : ∀ c ∈ calls.head?, n ≤ c.1.length) :
    ∀ c ∈ shown P calls s, Tiled c.1.length c.2 := by
  induction calls generalizing n s with
  | nil =>
      intro c hc
      cases hc
  | cons call calls ih =>
      have hcall : Tiled call.1.length (parseRequest P call.1 call.2 s).2 :=
        parseRequest_keeps P call.2 Tiled.line Tiled.wait
          (hs.mono (hfirst call rfl))
      intro c hc
      rcases List.mem_cons.mp hc with rfl | hc
      · exact hcall
      · refine ih hgrow.tail hcall ?_ c hc
        intro next hnext
        have hmem : next.1 ∈ (calls.map Prod.fst).head? := by
          rw [List.head?_map, hnext]
          rfl
        exact ((List.isChain_cons.mp hgrow).1 next.1 hmem).length_le

/-- A call shows the text it was given. -/
theorem shown_content {P : LineParsers} {calls : List (Str × CheckStatus)}
    {s : HttpParse} : ∀ c ∈ shown P calls s, ∃ call ∈ calls,
      c.1 = call.1 := by
  induction calls generalizing s with
  | nil =>
      intro c hc
      cases hc
  | cons call calls ih =>
      intro c hc
      rcases List.mem_cons.mp hc with rfl | hc
      · exact ⟨call, List.mem_cons_self .., rfl⟩
      · obtain ⟨call', hmem, h⟩ := ih c hc
        exact ⟨call', List.mem_cons_of_mem _ hmem, h⟩

/-- The object a run leaves is a fresh one or the last call's. -/
theorem afterCalls_eq (P : LineParsers) (calls : List (Str × CheckStatus))
    (s : HttpParse) :
    (calls = [] ∧ afterCalls P calls s = s)
      ∨ ∃ c ∈ shown P calls s, afterCalls P calls s = c.2 := by
  induction calls generalizing s with
  | nil => exact Or.inl ⟨rfl, rfl⟩
  | cons call calls ih =>
      right
      rcases ih (parseRequest P call.1 call.2 s).2 with ⟨rfl, _⟩ | ⟨c, hc, h⟩
      · exact ⟨_, List.mem_cons_self .., rfl⟩
      · exact ⟨c, List.mem_cons_of_mem _ hc, h⟩

/-- An object whose cuts are tiled from the start of the text has
handed out one line for every two bytes at most. -/
theorem Tiled.handed_le {n : Nat} {s : HttpParse} (h : Tiled n s) :
    s.handed.length ≤ (n + 1) / 2 := by
  have hstart := h.start_le
  have hcur := h.cur_le
  have hcuts := h.cuts
  unfold HttpParse.cuts at hcuts
  cases hs : s.handed with
  | nil => exact Nat.zero_le _
  | cons a l =>
      rw [hs] at hcuts
      have := hcuts.mul_length_le
      rw [List.length_cons]
      omega

/-- `parse_request` tiles its input. For every number of calls on one
object with NUL-free texts, each extending the one before, in either
status, and for all line parsers: the positions handed to them and
`m_start_line` are 0 and the cursors right behind each `LINE_OK`, each
at least two behind the one before; no position is handed out twice and
every byte before `m_start_line` is in exactly one line; and in every
call, behind each line and at its end, `m_start_line ≤ m_check_cur ≤
length + 1`, which an `int` holds, and at most `(length + 1) / 2` lines
have been handed out in the whole run. That every call ends is
`parseRequest` being total. -/
theorem parse_request_tiles (P : LineParsers)
    {calls : List (Str × CheckStatus)}
    (hread : ∀ c ∈ calls, nul ∉ c.1 ∧ c.1.length < 2 ^ 31 - 2)
    (hgrow : (calls.map Prod.fst).IsChain (· <+: ·)) :
    let last := afterCalls P calls .new
    last.handed ++ [last.mStartLine]
        = 0 :: last.lineOks.map LineOk.mCheckCur
      ∧ Cuts 2 (last.handed ++ [last.mStartLine])
      ∧ last.handed.Nodup
      ∧ (∀ i < last.mStartLine, ∃! p,
          p ∈ pieces (last.handed ++ [last.mStartLine])
            ∧ p.1 ≤ i ∧ i < p.2)
      ∧ ∀ c ∈ shown P calls .new,
          c.2.handed.length ≤ (c.1.length + 1) / 2
            ∧ ∀ l ∈ ⟨c.2.mCheckCur, c.2.mStartLine⟩ :: c.2.lineOks,
              l.mStartLine ≤ l.mCheckCur ∧ l.mCheckCur ≤ c.1.length + 1
                ∧ l.mCheckCur < 2 ^ 31 - 1 := by
  intro last
  have hrun : ∀ c ∈ shown P calls .new, Tiled c.1.length c.2 :=
    shown_tiled P hgrow (tiled_new 0) fun c _ => Nat.zero_le _
  have hlast : ∃ n, Tiled n last := by
    rcases afterCalls_eq P calls .new with ⟨-, h⟩ | ⟨c, hc, h⟩
    · refine ⟨0, ?_⟩
      show Tiled 0 (afterCalls P calls .new)
      rw [h]
      exact tiled_new 0
    · refine ⟨c.1.length, ?_⟩
      show Tiled _ (afterCalls P calls .new)
      rw [h]
      exact hrun c hc
  obtain ⟨n, htiled⟩ := hlast
  have hcuts := htiled.cuts
  have hjoined := htiled.joined
  unfold HttpParse.cuts at hcuts hjoined
  refine ⟨hjoined, hcuts, ?_, ?_, fun c hc => ?_⟩
  · exact (List.nodup_append.mp (hcuts.nodup (by decide))).1
  · intro i hi
    cases hh : last.handed with
    | nil =>
        rw [hh] at hjoined
        have hzero : last.mStartLine = 0 := (List.cons.inj hjoined).1
        omega
    | cons a l =>
        rw [hh] at hjoined hcuts
        have hzero : a = 0 := (List.cons.inj hjoined).1
        exact hcuts.piece (by omega) hi
  · have ht := hrun c hc
    refine ⟨ht.handed_le, ?_⟩
    intro l hl
    have hline : l.mStartLine ≤ l.mCheckCur
        ∧ l.mCheckCur ≤ c.1.length + 1 := by
      rcases List.mem_cons.mp hl with rfl | hl
      · exact ⟨ht.start_le, ht.cur_le⟩
      · exact ht.lineOks l hl
    obtain ⟨call, hcall, hcontent⟩ := shown_content c hc
    have hshort := (hread call hcall).2
    rw [← hcontent] at hshort
    exact ⟨hline.1, hline.2, by omega⟩

/-- The first line of a text that arrives in two pieces. -/
theorem parse_request_tiles_split :
    let calls := [(bytes "GET /", CheckStatus.chksHeader),
      (bytes "GET / HTT\r\nA", CheckStatus.chksRequestLine)]
    let last := afterCalls (lineParsers fun _ => .noRequest) calls .new
    last.handed ++ [last.mStartLine]
        = 0 :: last.lineOks.map LineOk.mCheckCur
      ∧ Cuts 2 (last.handed ++ [last.mStartLine])
      ∧ last.handed.Nodup
      ∧ (∀ i < last.mStartLine, ∃! p,
          p ∈ pieces (last.handed ++ [last.mStartLine])
            ∧ p.1 ≤ i ∧ i < p.2)
      ∧ ∀ c ∈ shown (lineParsers fun _ => .noRequest) calls .new,
          c.2.handed.length ≤ (c.1.length + 1) / 2
            ∧ ∀ l ∈ ⟨c.2.mCheckCur, c.2.mStartLine⟩ :: c.2.lineOks,
              l.mStartLine ≤ l.mCheckCur ∧ l.mCheckCur ≤ c.1.length + 1
                ∧ l.mCheckCur < 2 ^ 31 - 1 :=
  parse_request_tiles _ (by decide) (by decide)

end TrashyServer.Parse
