/-
What the text of a message says to the request parser, with no object
in sight.

`lines` are the message's lines that end in CRLF, `target` the second
of the words that end in a space on the first of them. A line stores
one attribute at most (`attribOf`), and which one does not depend on
the object: the first of five method words anywhere in the line, or
else the version, or else the text behind one of three header names.

The one way a line can fail is a header name that ends it: the cut
starts one past the name's colon, where a space is expected
(`CutsPastEnd`, `attribOf_eq_none_iff`).
-/
import TrashyServer.Tool.HttpParse

namespace TrashyServer.Tool

-- ============================================================== the lines

/-- The lines that end in CRLF. -/
def lines (text : Str) : List Str := Search.pieces crlf text

/-- The words of a line that end in a space. -/
def words (line : Str) : List Str := Search.pieces (bytes " ") line

/-- The second word of the first line. -/
def target (text : Str) : Option Str :=
  (lines text).head?.bind fun line => (words line)[1]?

-- ========================================================= method words

/-- The word a method goes by. -/
def Method.word : Method → Str
  | get => bytes "GET"
  | put => bytes "PUT"
  | delete => bytes "DELETE"
  | post => bytes "POST"
  | head => bytes "HEAD"

/-- The methods in the order `setting_attrib` tries them. -/
def methodOrder : List Method := [.get, .post, .put, .delete, .head]

/-- The method a line names: the first in that order whose word occurs
anywhere in it. -/
def named (line : Str) : Option Method :=
  methodOrder.find? fun m => m.word <:+: line

/-- The method the last line to name one names. -/
def lastNamed (ls : List Str) : Option Method := (ls.filterMap named).getLast?

/-- A line with a method's word names a method. -/
theorem named_ne_none {m : Method} {line : Str} (h : m.word <:+: line) :
    named line ≠ none := by
  intro hnone
  have hm : m ∈ methodOrder := by cases m <;> decide
  have := List.find?_eq_none.mp hnone m hm
  simp [h] at this

theorem lastNamed_cons (line : Str) (ls : List Str) :
    lastNamed (line :: ls) = (lastNamed ls).or (named line) := by
  unfold lastNamed
  rw [List.filterMap_cons]
  cases named line with
  | none => simp
  | some m => rw [List.getLast?_cons]; cases (ls.filterMap named).getLast? <;> rfl

theorem lastNamed_eq_none_iff {ls : List Str} :
    lastNamed ls = none ↔ ∀ line ∈ ls, named line = none := by
  unfold lastNamed
  rw [List.getLast?_eq_none_iff, List.filterMap_eq_nil_iff]

-- ========================================================= header values

/-- What a header line holds: the text one past the colon that ends the
first `word`, unless the line ends there. -/
def valueBehind (word line : Str) : Option Str :=
  (Search.find word line).bind fun i =>
    if i + word.length = line.length then none
    else some (line.drop (i + word.length + 1))

/-- The line has `name` in it, and the first `word` in it ends it. -/
def EndsAt (name word : String) (line : Str) : Prop :=
  bytes name <:+: line
    ∧ Search.find (bytes word) line = some (line.length - (bytes word).length)

instance (name word : String) (line : Str) : Decidable (EndsAt name word line) :=
  inferInstanceAs (Decidable (_ ∧ _))

/-- With `word` in the line there is a value, unless `word` ends it. -/
theorem valueBehind_eq_none_iff {word line : Str} (h : word <:+: line) :
    valueBehind word line = none
      ↔ Search.find word line = some (line.length - word.length) := by
  obtain ⟨i, hi⟩ := Search.exists_find h
  have hle := Search.find_add_length_le hi
  unfold valueBehind
  rw [hi, Option.bind_some, Option.some.injEq]
  constructor
  · intro hnone
    split at hnone
    · omega
    · cases hnone
  · intro heq
    rw [if_pos (by omega)]

/-- The source's cut behind the first `word`: the value, or
`std::out_of_range`. -/
theorem substrFrom_behind {word line : Str} (h : word <:+: line) :
    substrFrom line (offset (findFrom word line 0) (word.length + 1))
      = match valueBehind word line with
        | some v => .ok v
        | none => .error .substrRange := by
  obtain ⟨i, hi⟩ := Search.exists_find h
  have hle := Search.find_add_length_le hi
  unfold valueBehind
  rw [findFrom_zero, hi, Option.bind_some, offset]
  unfold substrFrom
  by_cases hend : i + word.length = line.length
  · rw [if_pos hend, if_pos (by omega)]
  · rw [if_neg hend, if_neg (by omega), Nat.add_assoc]

/-- A header name holds the word its value is cut behind. -/
theorem host_word {line : Str} (h : bytes "Host:" <:+: line) :
    bytes "Host" <:+: line :=
  List.IsInfix.trans ⟨[], bytes ":", rfl⟩ h

theorem length_word {line : Str} (h : bytes "Content-length:" <:+: line) :
    bytes "length:" <:+: line :=
  List.IsInfix.trans ⟨bytes "Content-", [], rfl⟩ h

theorem type_word {line : Str} (h : bytes "Content-type:" <:+: line) :
    bytes "type:" <:+: line :=
  List.IsInfix.trans ⟨bytes "Content-", [], rfl⟩ h

/-- `"Host:"` leaves room behind the first `"Host"`. -/
theorem valueBehind_host {line : Str} (h : bytes "Host:" <:+: line) :
    valueBehind (bytes "Host") line ≠ none := by
  obtain ⟨a, b, rfl⟩ := h
  have hsplit : a ++ bytes "Host:" ++ b
      = a ++ (bytes "Host" ++ (bytes ":" ++ b)) := by
    rw [List.append_assoc]
    rfl
  obtain ⟨i, hi, hia⟩ := Search.find_le (bytes "Host") a (bytes ":" ++ b)
  have hcolon : (bytes ":").length = 1 := rfl
  unfold valueBehind
  rw [hsplit, hi, Option.bind_some, if_neg]
  · exact Option.some_ne_none _
  · simp only [List.length_append, hcolon]
    omega

-- ===================================================== what a line stores

/-- The attribute a line stores. -/
inductive Attrib
  | nothing
  | method (m : Method)
  | version
  | host (v : Str)
  | fileLength (v : Str)
  | fileType (v : Str)

/-- The attribute of a line; `none` for a cut past its end. -/
def attribOf (line : Str) : Option Attrib :=
  match named line with
  | some m => some (.method m)
  | none =>
      if Pattern.search http11 line then some .version
      else if bytes "Host:" <:+: line then
        (valueBehind (bytes "Host") line).map .host
      else if bytes "Content-length:" <:+: line then
        (valueBehind (bytes "length:") line).map .fileLength
      else if bytes "Content-type:" <:+: line then
        (valueBehind (bytes "type:") line).map .fileType
      else some .nothing

/-- Storing an attribute. -/
def Attrib.store (p : HttpParse) : Attrib → HttpParse
  | nothing => p
  | method m => { p with requestMethod := some m }
  | version => { p with version := 1 }
  | host v => { p with hostStr := v }
  | fileLength v => { p with fileLengthStr := v }
  | fileType v => { p with fileTypeStr := v }

/-- A line whose header value would start past its end. -/
def CutsPastEnd (line : Str) : Prop :=
  named line = none ∧ Pattern.search http11 line = false
    ∧ ¬ bytes "Host:" <:+: line
    ∧ (EndsAt "Content-length:" "length:" line
        ∨ ¬ bytes "Content-length:" <:+: line
          ∧ EndsAt "Content-type:" "type:" line)

instance (line : Str) : Decidable (CutsPastEnd line) :=
  inferInstanceAs (Decidable (_ ∧ _ ∧ _ ∧ _))

theorem attribOf_eq_none_iff {line : Str} :
    attribOf line = none ↔ CutsPastEnd line := by
  unfold attribOf CutsPastEnd EndsAt
  cases hnamed : named line with
  | some m => simp
  | none =>
      by_cases hver : Pattern.search http11 line = true
      · simp [hver]
      by_cases hhost : bytes "Host:" <:+: line
      · simp [hver, hhost, valueBehind_host hhost]
      by_cases hlen : bytes "Content-length:" <:+: line
      · have hnone := valueBehind_eq_none_iff (length_word hlen)
        simp [hver, hhost, hlen, hnone]
      by_cases htype : bytes "Content-type:" <:+: line
      · have hnone := valueBehind_eq_none_iff (type_word htype)
        simp [hver, hhost, hlen, htype, hnone]
      · simp [hver, hhost, hlen, htype]

/-- The method of the object is the one the line names, if any. -/
theorem requestMethod_store {line : Str} {a : Attrib} (p : HttpParse)
    (h : attribOf line = some a) :
    (a.store p).requestMethod = (named line).or p.requestMethod := by
  unfold attribOf at h
  cases hnamed : named line with
  | some m =>
      rw [hnamed] at h
      cases h
      rfl
  | none =>
      simp only [hnamed] at h
      split at h
      · cases h
        rfl
      split at h
      · obtain ⟨v, _, rfl⟩ := Option.map_eq_some_iff.mp h
        rfl
      split at h
      · obtain ⟨v, _, rfl⟩ := Option.map_eq_some_iff.mp h
        rfl
      split at h
      · obtain ⟨v, _, rfl⟩ := Option.map_eq_some_iff.mp h
        rfl
      · cases h
        rfl

-- ================================================= the attributes together

/-- The attributes of a message's lines leave the object's text and
route alone, and its method is the last one named. -/
theorem store_all {ls : List Str} {as : List Attrib} (p : HttpParse)
    (h : ls.mapM attribOf = some as) :
    (as.foldl Attrib.store p).originData = p.originData
      ∧ (as.foldl Attrib.store p).route = p.route
      ∧ (as.foldl Attrib.store p).requestMethod
          = (lastNamed ls).or p.requestMethod := by
  induction ls generalizing p as with
  | nil =>
      cases h
      exact ⟨rfl, rfl, rfl⟩
  | cons line ls ih =>
      rw [List.mapM_cons] at h
      obtain ⟨a, ha, h⟩ := Option.bind_eq_some_iff.mp h
      obtain ⟨as', has, h⟩ := Option.bind_eq_some_iff.mp h
      cases h
      obtain ⟨horigin, hroute, hmethod⟩ := ih (a.store p) has
      have hkeep : (a.store p).originData = p.originData
          ∧ (a.store p).route = p.route := by
        cases a <;> exact ⟨rfl, rfl⟩
      rw [List.foldl_cons]
      refine ⟨horigin.trans hkeep.1, hroute.trans hkeep.2, ?_⟩
      rw [hmethod, requestMethod_store p ha, lastNamed_cons, Option.or_assoc]

end TrashyServer.Tool
