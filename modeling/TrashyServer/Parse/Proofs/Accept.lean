/-
Which texts of a well-formed request the parser lets through.

`check_line` compares the position behind a CR with `'\n'`, where the
character there was meant. On a well-formed request this decides
everything at the first CR: it ends the request line, and unless that
CR stands at index 9 the answer is `LINE_BAD` as soon as one more byte
has arrived (`checkLine_past`). Up to that CR the object waits
(`checkLine_before`).

At index 9 the line is completed, and the answer is the line parser's,
which the source leaves open on these paths: a caller may rely on what
holds for every `offEnd` and on nothing else. So the request is let
through exactly as long as no text reaches past the CR of the request
line (`not_refused_iff`).
-/
import TrashyServer.Parse.Proofs.Scan

namespace TrashyServer.Parse

-- ==================================================== well-formed requests

/-- No CR, LF or NUL inside. -/
def LinePart (s : Str) : Prop :=
  ∀ b ∈ s, isBreak b = false ∧ b ≠ nul

instance (s : Str) : Decidable (LinePart s) :=
  List.decidableBAll _ s

/-- A request line `METHOD SP path SP version` and header lines
`Name: value`. -/
structure WfRequest where
  method : Str
  path : Str
  version : Str
  headers : List (Str × Str)
  method_part : LinePart method
  path_part : LinePart path
  version_part : LinePart version
  headers_part : ∀ h ∈ headers, LinePart h.1 ∧ LinePart h.2

namespace WfRequest

variable (r : WfRequest)

/-- `METHOD SP path SP version`. -/
def requestLine : Str :=
  r.method ++ bytes " " ++ r.path ++ bytes " " ++ r.version

/-- The header lines, each with its CRLF. -/
def headerLines : Str :=
  r.headers.flatMap fun h => h.1 ++ bytes ": " ++ h.2 ++ crlf

/-- The request as it is sent. -/
def text : Str := r.requestLine ++ crlf ++ r.headerLines ++ crlf

theorem text_eq :
    r.text = r.requestLine ++ cr :: lf :: (r.headerLines ++ crlf) := by
  simp [text, crlf]

theorem requestLine_part : LinePart r.requestLine := by
  intro b hb
  have hsp : LinePart (bytes " ") := by decide
  unfold requestLine at hb
  simp only [List.mem_append] at hb
  rcases hb with (((hb | hb) | hb) | hb) | hb
  · exact r.method_part b hb
  · exact hsp b hb
  · exact r.path_part b hb
  · exact hsp b hb
  · exact r.version_part b hb

/-- The first break of the text is the CR behind the request line. -/
theorem text_plain : Plain r.text 0 r.requestLine.length := by
  intro j _ hj
  have hget : charAt r.text j = r.requestLine[j] := by
    unfold charAt
    rw [text_eq, List.getD_eq_getElem?_getD, List.getElem?_append_left hj,
      List.getElem?_eq_getElem hj, Option.getD_some]
  rw [hget]
  exact (r.requestLine_part _ (List.getElem_mem hj)).1

theorem text_cr : charAt r.text r.requestLine.length = cr := by
  unfold charAt
  rw [text_eq, List.getD_eq_getElem?_getD,
    List.getElem?_append_right (Nat.le_refl _)]
  simp

end WfRequest

-- ============================================== one prefix of the request

theorem seen_le_length (w : Str) : seen w ≤ w.length := by
  have hcut : strlen w ≤ w.length := (List.takeWhile_sublist _).length_le
  have := toInt_le (strlen w)
  unfold seen
  omega

/-- A prefix that reaches the CR of the request line: it waits for one
more byte, and then the index decides. -/
theorem checkLine_at_cr (r : WfRequest) {n c : Nat}
    (hc : c ≤ r.requestLine.length)
    (hn : r.requestLine.length < seen (r.text.take n)) :
    checkLine (r.text.take n) c
      = if r.requestLine.length + 1 = seen (r.text.take n) then
          (.lineOpen, r.requestLine.length)
        else if r.requestLine.length = 9 then
          (.lineOk, r.requestLine.length + 2)
        else (.lineBad, r.requestLine.length) := by
  have hp : r.text.take n <+: r.text := List.take_prefix n r.text
  have hle := seen_le_length (r.text.take n)
  have hcr : charAt (r.text.take n) r.requestLine.length = cr := by
    rw [charAt_isPrefix hp (by omega)]
    exact r.text_cr
  have hplain : Plain (r.text.take n) c r.requestLine.length :=
    fun j _ hj => by
      rw [charAt_isPrefix hp (by omega)]
      exact r.text_plain j (Nat.zero_le j) hj
  have hlf : r.requestLine.length + 1 = lf.toNat
      ↔ r.requestLine.length = 9 := by
    have : lf.toNat = 10 := rfl
    omega
  rw [checkLine_of_break hc hn (by rw [hcr]; rfl) hplain]
  unfold verdict
  rw [if_pos hcr]
  simp only [hlf]

/-- Not past the CR of the request line: the object waits. -/
theorem checkLine_before (r : WfRequest) {n c : Nat}
    (hc : c ≤ r.requestLine.length)
    (hn : seen (r.text.take n) ≤ r.requestLine.length + 1) :
    ∃ cur, checkLine (r.text.take n) c = (.lineOpen, cur)
      ∧ cur ≤ r.requestLine.length := by
  by_cases hlast : seen (r.text.take n) ≤ r.requestLine.length
  · have hle := seen_le_length (r.text.take n)
    have hplain : Plain (r.text.take n) c (seen (r.text.take n)) :=
      fun j _ hj => by
        rw [charAt_isPrefix (List.take_prefix n r.text) (by omega)]
        exact r.text_plain j (Nat.zero_le j) (by omega)
    exact ⟨_, checkLine_of_plain hplain, by omega⟩
  · refine ⟨_, ?_, Nat.le_refl _⟩
    rw [checkLine_at_cr r hc (by omega), if_pos (by omega)]

/-- Past the CR of the request line: the line is bad, but for the one
length where the CR stands at index 9. -/
theorem checkLine_past (r : WfRequest) {n c : Nat}
    (hc : c ≤ r.requestLine.length)
    (hn : r.requestLine.length + 1 < seen (r.text.take n)) :
    checkLine (r.text.take n) c
      = if r.requestLine.length = 9 then (.lineOk, r.requestLine.length + 2)
        else (.lineBad, r.requestLine.length) := by
  rw [checkLine_at_cr r hc (by omega), if_neg (by omega)]

/-- Off their end with `BAD_REQUEST`, the line parsers refuse every
line. -/
theorem parseRequest_refusing {content : Str} {status : CheckStatus}
    {s : HttpParse} {cur : Nat}
    (h : checkLine content s.mCheckCur = (.lineOk, cur)) :
    (parseRequest (lineParsers fun _ => .badRequest) content status s).1
      = .badRequest := by
  rw [parseRequest_of_ok _ _ h]
  cases status with
  | chksHeader =>
      have hline : (lineParsers fun _ => .badRequest).parseRequestline content
          s.mStartLine .chksHeader = .badRequest := by
        simp only [lineParsers, parseRequestline]
        split <;> rfl
      simp only [hline]
  | chksRequestLine => rfl

/-- Past the CR at any index but 9 the request is refused, whatever the
line parsers return. -/
theorem parseRequest_past (r : WfRequest) (P : LineParsers) {n : Nat}
    (status : CheckStatus) {s : HttpParse}
    (hs : s.mCheckCur ≤ r.requestLine.length)
    (hn : r.requestLine.length + 1 < seen (r.text.take n))
    (hnine : r.requestLine.length ≠ 9) :
    (parseRequest P (r.text.take n) status s).1 = .badRequest := by
  have hbad := checkLine_past r hs hn
  rw [if_neg hnine] at hbad
  rw [parseRequest_of_bad P status hbad]

-- ================================================= the request in pieces

/-- The calls of `parse_request` that hand over the first `n` bytes. -/
def WfRequest.calls (r : WfRequest) (ns : List (Nat × CheckStatus)) :
    List (Str × CheckStatus) :=
  ns.map fun c => (r.text.take c.1, c.2)

/-- Texts that stay short of the CR's successor are all waited for. -/
theorem calls_before (r : WfRequest) (P : LineParsers) :
    ∀ {ns : List (Nat × CheckStatus)} {s : HttpParse},
      s.mCheckCur ≤ r.requestLine.length →
      (∀ c ∈ ns, seen (r.text.take c.1) ≤ r.requestLine.length + 1) →
      ∀ code ∈ parseCalls P (r.calls ns) s, code = .noRequest := by
  intro ns
  induction ns with
  | nil =>
      intro s _ _ code hcode
      cases hcode
  | cons c ns ih =>
      intro s hs hns code hcode
      obtain ⟨cur, hopen, hcur⟩ :=
        checkLine_before r hs (hns c (List.mem_cons_self ..))
      have hcall := parseRequest_of_open P c.2 hopen
      change code ∈ (parseRequest P (r.text.take c.1) c.2 s).1
        :: parseCalls P (r.calls ns) (parseRequest P (r.text.take c.1) c.2 s).2
        at hcode
      rw [hcall] at hcode
      rcases List.mem_cons.mp hcode with rfl | hcode
      · rfl
      · exact ih (s := { s with mCheckCur := cur }) hcur
          (fun c' hc' => hns c' (List.mem_cons_of_mem _ hc')) code hcode

/-- The first text that reaches past the CR may be refused. -/
theorem calls_past (r : WfRequest) :
    ∀ {ns : List (Nat × CheckStatus)} {s : HttpParse},
      s.mCheckCur ≤ r.requestLine.length →
      (∃ c ∈ ns, r.requestLine.length + 1 < seen (r.text.take c.1)) →
      .badRequest
        ∈ parseCalls (lineParsers fun _ => .badRequest) (r.calls ns) s := by
  intro ns
  induction ns with
  | nil =>
      intro s _ h
      obtain ⟨c, hc, _⟩ := h
      cases hc
  | cons c ns ih =>
      intro s hs h
      show HttpCode.badRequest
        ∈ (parseRequest _ (r.text.take c.1) c.2 s).1
          :: parseCalls _ (r.calls ns) _
      by_cases hc : r.requestLine.length + 1 < seen (r.text.take c.1)
      · have hbad : (parseRequest (lineParsers fun _ => .badRequest)
            (r.text.take c.1) c.2 s).1 = .badRequest := by
          by_cases hnine : r.requestLine.length = 9
          · have hok := checkLine_past r hs hc
            rw [if_pos hnine] at hok
            exact parseRequest_refusing hok
          · exact parseRequest_past r _ c.2 hs hc hnine
        rw [hbad]
        exact List.mem_cons_self ..
      · obtain ⟨cur, hopen, hcur⟩ := checkLine_before r hs (Nat.not_lt.mp hc)
        rw [parseRequest_of_open _ c.2 hopen]
        refine List.mem_cons_of_mem _ (ih hcur ?_)
        obtain ⟨c', hc', hpast⟩ := h
        rcases List.mem_cons.mp hc' with rfl | hc'
        · exact absurd hpast hc
        · exact ⟨c', hc', hpast⟩

/-- When a well-formed request is never refused. For every request and
every texts of its first bytes handed to one object with any statuses:
no call answers `BAD_REQUEST`, whatever the line parsers return off
their end, exactly when no text reaches past the CR that ends the
request line. -/
theorem not_refused_iff (r : WfRequest) (ns : List (Nat × CheckStatus)) :
    (∀ offEnd, .badRequest ∉ parseCalls (lineParsers offEnd) (r.calls ns) .new)
      ↔ ∀ c ∈ ns, seen (r.text.take c.1) ≤ r.requestLine.length + 1 := by
  constructor
  · intro h c hc
    by_cases hpast : r.requestLine.length + 1 < seen (r.text.take c.1)
    · exact absurd (calls_past r (Nat.zero_le _) ⟨c, hc, hpast⟩) (h _)
    · exact Nat.not_lt.mp hpast
  · intro h offEnd hmem
    cases calls_before r _ (Nat.zero_le _) h _ hmem

/-- `GET / HTTP/1.1` and no header. -/
def plainGet : WfRequest where
  method := bytes "GET"
  path := bytes "/"
  version := bytes "HTTP/1.1"
  headers := []
  method_part := by decide
  path_part := by decide
  version_part := by decide
  headers_part := fun _ h => absurd h (List.not_mem_nil)

/-- Handed over whole, it is refused in either status, and no value the
line parsers may return off their end helps. -/
theorem plainGet_refused :
    ¬ ∃ offEnd status, .badRequest ∉ parseCalls (lineParsers offEnd)
        (plainGet.calls [(plainGet.text.length, status)]) .new := by
  rintro ⟨offEnd, status, hnot⟩
  have hbad : (parseRequest (lineParsers offEnd)
      (plainGet.text.take plainGet.text.length) status .new).1 = .badRequest :=
    parseRequest_past plainGet _ status (by decide) (by decide) (by decide)
  exact hnot (List.mem_singleton.mpr hbad.symm)

end TrashyServer.Parse
