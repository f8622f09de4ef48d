/-
The incremental request parser (lib/http_parse.h, lib/http_parse.cpp).

One object is fed longer and longer texts of one request; `m_check_cur`
and `m_start_line` survive between the calls. A text is a C string, so
a `Str` here stands for its bytes and the NUL behind them, and
`content + n` is the position `n`.

# What the source leaves open

- `int end_cur = strlen(buff)` narrows a `size_t`; `toInt` is that
  conversion. `m_check_cur` is a `Nat`: it never passes `end_cur + 1`
  (`checkLine_lineOk`), so an `int` holds it for every text shorter
  than 2^31 - 2.
- `parse_requestline` on its accepting path and `parse_header` on every
  path run off their end without a `return`. The value the caller then
  reads is anything at all: `offEnd`, one value for each position a
  line parser can be handed.
- `parse_request` takes its line parsers as parameters (`LineParsers`),
  the source's own two being `lineParsers`.

`handed` records the positions handed to a line parser, and `lineOks`
the two members right behind the `LINE_OK` before each, both in order; no
statement of the source reads them. `m_httpmethod` and `m_httppath` are
written by the constructor only and are left out.
-/
import TrashyServer.Str

namespace TrashyServer.Parse

-- ============================================================ the types

/-- `CHECK_STATUS`. -/
inductive CheckStatus
  | chksHeader
  | chksRequestLine
deriving DecidableEq

/-- `LINE_STATUS`. -/
inductive LineStatus
  | lineOk
  | lineBad
  | lineOpen
deriving DecidableEq

/-- `HTTP_CODE`. -/
inductive HttpCode
  | noRequest
  | getRequest
  | badRequest
  | closedConnection
  | internalError
deriving DecidableEq

/-- The members right behind a `LINE_OK`. -/
structure LineOk where
  mCheckCur : Nat
  mStartLine : Nat

/-- `http_parse`. -/
structure HttpParse where
  mCheckCur : Nat
  mStartLine : Nat
  handed : List Nat
  lineOks : List LineOk

/-- `http_parse()`. -/
def HttpParse.new : HttpParse := ⟨0, 0, [], []⟩

/-- A complete line: its start is taken, the next one starts at the
cursor. -/
def HttpParse.lineOk (s : HttpParse) (cur : Nat) : HttpParse :=
  ⟨cur, cur, s.handed ++ [s.mStartLine], s.lineOks ++ [⟨cur, cur⟩]⟩

-- ============================================================ check_line

/-- `buff[i]`, the NUL behind the text included. -/
def charAt (buff : Str) (i : Nat) : UInt8 := buff.getD i nul

/-- The loop of `check_line`, which can go round `n` more times. The
first test on a CR compares the position behind it, not the character
there, with `'\n'`. -/
def checkLineLoop (buff : Str) (endCur : Int) :
    Nat → Nat → LineStatus × Nat
  | 0, cur => (.lineOpen, cur)
  | n + 1, cur =>
      if charAt buff cur = cr then
        if (cur : Int) + 1 = endCur then (.lineOpen, cur)
        else if cur + 1 = lf.toNat then (.lineOk, cur + 2)
        else (.lineBad, cur)
      else if charAt buff cur = lf then
        if 1 < cur ∧ charAt buff (cur - 1) = cr then (.lineOk, cur + 2)
        else (.lineBad, cur)
      else checkLineLoop buff endCur n (cur + 1)

/-- `check_line`: its answer and the new `m_check_cur`. -/
def checkLine (buff : Str) (cur : Nat) : LineStatus × Nat :=
  let endCur := toInt (strlen buff)
  checkLineLoop buff endCur (endCur - cur).toNat cur

theorem checkLine_eq (buff : Str) (cur : Nat) :
    checkLine buff cur
      = checkLineLoop buff (toInt (strlen buff))
          (toInt (strlen buff) - cur).toNat cur := rfl

/-- A line ends behind the position `check_line` found it at, and at
most one past the end of the text. -/
theorem checkLineLoop_lineOk {buff : Str} {endCur : Int} {n cur cur' : Nat}
    (hn : n = (endCur - cur).toNat)
    (h : checkLineLoop buff endCur n cur = (.lineOk, cur')) :
    cur + 2 ≤ cur' ∧ (cur' : Int) ≤ endCur + 1 := by
  induction n generalizing cur with
  | zero => cases h
  | succ n ih =>
      rw [checkLineLoop] at h
      split at h
      · split at h
        · cases h
        · split at h
          · cases h
            omega
          · cases h
      · split at h
        · split at h
          · cases h
            omega
          · cases h
        · have := ih (by omega) h
          omega

theorem checkLine_lineOk {buff : Str} {cur cur' : Nat}
    (h : checkLine buff cur = (.lineOk, cur')) :
    cur + 2 ≤ cur' ∧ cur' ≤ strlen buff + 1 := by
  rw [checkLine_eq] at h
  have := checkLineLoop_lineOk rfl h
  have := toInt_le (strlen buff)
  omega

-- ========================================================= parse_request

/-- The results of the line parsers, by the text, the position of the
line and (for the first) the status passed on. -/
structure LineParsers where
  parseRequestline : Str → Nat → CheckStatus → HttpCode
  parseHeader : Str → Nat → HttpCode

/-- `parse_request`. The `default:` of its `switch` is for values
outside the enumeration. -/
def parseRequest (P : LineParsers) (content : Str) (status : CheckStatus)
    (s : HttpParse) : HttpCode × HttpParse :=
  match _h : checkLine content s.mCheckCur with
  | (.lineOk, cur) =>
      let tmp := s.mStartLine
      let s' := s.lineOk cur
      match status with
      | .chksHeader =>
          match P.parseRequestline content tmp status with
          | .badRequest => (.badRequest, s')
          | _ => parseRequest P content status s'
      | .chksRequestLine =>
          match P.parseHeader content tmp with
          | .badRequest => (.badRequest, s')
          | .getRequest => (.getRequest, s')
          | _ => parseRequest P content status s'
  | (.lineOpen, cur) => (.noRequest, { s with mCheckCur := cur })
  | (.lineBad, cur) => (.badRequest, { s with mCheckCur := cur })
termination_by strlen content + 2 - s.mCheckCur
decreasing_by all_goals
  have := checkLine_lineOk _h
  show strlen content + 2 - cur < strlen content + 2 - s.mCheckCur
  omega

/-- An open line is waited for. -/
theorem parseRequest_of_open (P : LineParsers) {content : Str}
    (status : CheckStatus) {s : HttpParse} {cur : Nat}
    (h : checkLine content s.mCheckCur = (.lineOpen, cur)) :
    parseRequest P content status s
      = (.noRequest, { s with mCheckCur := cur }) := by
  rw [parseRequest]
  split
  · next hok => rw [h] at hok; cases hok
  · next hopen => rw [h] at hopen; cases hopen; rfl
  · next hbad => rw [h] at hbad; cases hbad

/-- A bad line refuses the request. -/
theorem parseRequest_of_bad (P : LineParsers) {content : Str}
    (status : CheckStatus) {s : HttpParse} {cur : Nat}
    (h : checkLine content s.mCheckCur = (.lineBad, cur)) :
    parseRequest P content status s
      = (.badRequest, { s with mCheckCur := cur }) := by
  rw [parseRequest]
  split
  · next hok => rw [h] at hok; cases hok
  · next hopen => rw [h] at hopen; cases hopen
  · next hbad => rw [h] at hbad; cases hbad; rfl

/-- A complete line goes to the line parser of the status, from where
it starts. -/
theorem parseRequest_of_ok (P : LineParsers) {content : Str}
    (status : CheckStatus) {s : HttpParse} {cur : Nat}
    (h : checkLine content s.mCheckCur = (.lineOk, cur)) :
    parseRequest P content status s
      = (let s' := s.lineOk cur
         match status with
         | .chksHeader =>
             match P.parseRequestline content s.mStartLine status with
             | .badRequest => (.badRequest, s')
             | _ => parseRequest P content status s'
         | .chksRequestLine =>
             match P.parseHeader content s.mStartLine with
             | .badRequest => (.badRequest, s')
             | .getRequest => (.getRequest, s')
             | _ => parseRequest P content status s') := by
  rw [parseRequest]
  split
  · next hok => rw [h] at hok; cases hok; rfl
  · next hopen => rw [h] at hopen; cases hopen
  · next hbad => rw [h] at hbad; cases hbad

/-- Calls of `parse_request` on one object, with the answer of each. -/
def parseCalls (P : LineParsers) :
    List (Str × CheckStatus) → HttpParse → List HttpCode
  | [], _ => []
  | (content, status) :: calls, s =>
      let r := parseRequest P content status s
      r.1 :: parseCalls P calls r.2

-- ====================================================== the line parsers

/-- `parse_requestline`: a text from the line's start on without a
space followed by a tab is refused; otherwise the function runs off its
end. -/
def parseRequestline (offEnd : Nat → HttpCode) (content : Str) (tmp : Nat)
    (_status : CheckStatus) : HttpCode :=
  let tbuff := cut (content.drop tmp)
  match Search.find (bytes " \t") tbuff with
  | none => .badRequest
  | some _ => offEnd tmp

/-- `parse_header`, which has no body. -/
def parseHeader (offEnd : Nat → HttpCode) (_content : Str) (tmp : Nat) :
    HttpCode :=
  offEnd tmp

/-- The line parsers of the source. -/
def lineParsers (offEnd : Nat → HttpCode) : LineParsers :=
  ⟨parseRequestline offEnd, parseHeader offEnd⟩

-- ================================================== check_line, repeated

/-- `check_line` called again and again until it answers something
other than `LINE_OK`: the cursors it answered `LINE_OK` at, then its
last answer and cursor. -/
def scan (buff : Str) (cur : Nat) : List Nat × LineStatus × Nat :=
  match _h : checkLine buff cur with
  | (.lineOk, cur') =>
      let r := scan buff cur'
      (cur' :: r.1, r.2)
  | (.lineOpen, cur') => ([], .lineOpen, cur')
  | (.lineBad, cur') => ([], .lineBad, cur')
termination_by strlen buff + 2 - cur
decreasing_by
  have := checkLine_lineOk _h
  omega

/-- One object handed one text after the other, each scanned as far as
it goes. -/
def scanEach : List Str → Nat → List (List Nat × LineStatus × Nat)
  | [], _ => []
  | p :: ps, cur =>
      let r := scan p cur
      r :: scanEach ps r.2.2

end TrashyServer.Parse
