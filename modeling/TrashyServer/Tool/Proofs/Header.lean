/-
Which header fields are stored as they are.

A field is recognised after the five method words and the version, and
its value is cut at an offset from a word in its name: one behind the
colon for `Host:`, two behind it for the other two. So the value is
right when the line has the space that the offset is for, and nothing
in the value is recognised before the name is (`attribOf_text_iff`).

A line that stores something else leaves the field right all the same
if the object holds both already (`store_eq_iff`).
-/
import TrashyServer.Tool.Proofs.Construct

namespace TrashyServer.Tool

-- ================================================================ the lines

/-- The header names of `setting_attrib`. -/
inductive Header
  | host
  | contentLength
  | contentType
deriving DecidableEq

namespace Header

def name : Header → Str
  | host => bytes "Host:"
  | contentLength => bytes "Content-length:"
  | contentType => bytes "Content-type:"

/-- The word the value is cut behind. -/
def word : Header → Str
  | host => bytes "Host"
  | contentLength => bytes "length:"
  | contentType => bytes "type:"

/-- The value in its field. -/
def attrib : Header → Str → Attrib
  | host => .host
  | contentLength => .fileLength
  | contentType => .fileType

/-- A needle that can start neither in the name nor at a space. -/
def Apart (h : Header) : Str → Prop
  | [] => False
  | x :: q => x ∉ h.name.tail ∧ x ≠ 32 ∧ ¬ x :: q <+: h.name
      ∧ ¬ h.name <+: x :: q

instance (h : Header) : (p : Str) → Decidable (h.Apart p)
  | [] => isFalse id
  | _ :: _ => inferInstanceAs (Decidable (_ ∧ _ ∧ _ ∧ _))

theorem apart_word (h : Header) (m : Method) : h.Apart m.word := by
  cases h <;> cases m <;> decide

theorem apart_host {h : Header} (hne : h ≠ host) : h.Apart (bytes "Host:") := by
  cases h with
  | host => exact absurd rfl hne
  | contentLength => decide
  | contentType => decide

theorem apart_length : contentType.Apart (bytes "Content-length:") := by
  decide

end Header

/-- A header name, a space or none, and a value. -/
structure HeaderLine where
  header : Header
  spaced : Bool
  value : Str
  starts : value.head? ≠ some 32
  oneLine : ∀ b ∈ value, b ≠ cr ∧ b ≠ lf

namespace HeaderLine

/-- What is between the name and the end of the line. -/
def rest (l : HeaderLine) : Str :=
  (if l.spaced then bytes " " else []) ++ l.value

def text (l : HeaderLine) : Str := l.header.name ++ l.rest

-- ========================================================= what is recognised

/-- A needle apart from the name is in the line exactly when it is in the
value. -/
theorem infix_text_iff (l : HeaderLine) {p : Str} (hp : l.header.Apart p) :
    p <:+: l.text ↔ p <:+: l.value := by
  obtain ⟨x, q, rfl⟩ : ∃ x q, p = x :: q := by
    cases p with
    | nil => exact hp.elim
    | cons x q => exact ⟨x, q, rfl⟩
  obtain ⟨htail, hspace, hname, hneedle⟩ := hp
  have hfront : ¬ x :: q <+: l.text := by
    intro h
    have hpre : l.header.name <+: l.text := List.prefix_append ..
    rcases List.prefix_or_prefix_of_prefix h hpre with h | h
    · exact hname h
    · exact hneedle h
  have hgap : x ∉ (if l.spaced then bytes " " else []) := by
    split
    · exact fun h => hspace (List.mem_singleton.mp h)
    · exact List.not_mem_nil
  have hcons : ∃ c, l.text = c :: (l.header.name.tail ++ l.rest) := by
    unfold text
    cases l.header with
    | host => exact ⟨_, rfl⟩
    | contentLength => exact ⟨_, rfl⟩
    | contentType => exact ⟨_, rfl⟩
  obtain ⟨c, hc⟩ := hcons
  rw [hc] at hfront ⊢
  rw [List.infix_cons_iff]
  refine (or_iff_right hfront).trans ?_
  apply (Search.infix_append_iff htail _).trans
  exact Search.infix_append_iff hgap _

/-- A method is named by the value alone. -/
theorem named_text_eq_none_iff (l : HeaderLine) :
    named l.text = none ↔ ∀ m : Method, ¬ m.word <:+: l.value := by
  have hword : ∀ m : Method, m.word <:+: l.text ↔ m.word <:+: l.value :=
    fun m => l.infix_text_iff (l.header.apart_word m)
  constructor
  · intro h m hm
    exact named_ne_none ((hword m).mpr hm) h
  · intro h
    unfold named
    apply List.find?_eq_none.mpr
    intro m _
    simpa using fun hm => h m ((hword m).mp hm)

/-- The version, likewise. -/
theorem version_text (l : HeaderLine) :
    Pattern.search http11 l.text = Pattern.search http11 l.value := by
  have hgap : (72 : UInt8) ∉ (if l.spaced then bytes " " else []) := by
    split
    · decide
    · exact List.not_mem_nil
  have hrest : Pattern.search http11 l.rest = Pattern.search http11 l.value :=
    Pattern.search_append hgap _
  unfold text
  cases l.header with
  | host =>
      -- the name starts with the pattern's first letter, and no more
      have htail : (72 : UInt8) ∉ bytes "ost:" := by decide
      have hstep : Pattern.search http11 (bytes "Host:" ++ l.rest)
          = Pattern.search http11 (bytes "ost:" ++ l.rest) := rfl
      rw [← hrest]
      exact hstep.trans (Pattern.search_append htail _)
  | contentLength =>
      have hname : (72 : UInt8) ∉ bytes "Content-length:" := by decide
      exact (Pattern.search_append hname _).trans hrest
  | contentType =>
      have hname : (72 : UInt8) ∉ bytes "Content-type:" := by decide
      exact (Pattern.search_append hname _).trans hrest

/-- The line's own name is found in it, -/
theorem name_infix (l : HeaderLine) : l.header.name <:+: l.text :=
  ⟨[], l.rest, rfl⟩

/-- and its word at the end of it; for `Host:` the colon is left over. -/
theorem find_word (l : HeaderLine) :
    Search.find l.header.word l.text
      = some (match l.header with
        | .host => 0
        | .contentLength => 8
        | .contentType => 8) := by
  unfold text
  cases l.header with
  | host => rfl
  | contentLength => rfl
  | contentType => rfl

/-- What the cut gives: all of the rest for `Host:`, all but its first
byte for the others, if there is one. -/
theorem valueBehind_text (l : HeaderLine) :
    valueBehind l.header.word l.text
      = if l.header = .host then some l.rest
        else if l.rest = [] then none else some (l.rest.drop 1) := by
  have hlen : l.text.length = l.header.name.length + l.rest.length :=
    List.length_append
  unfold valueBehind
  rw [find_word, Option.bind_some, hlen]
  unfold text
  have hend : l.rest.length = 0 ↔ l.rest = [] := List.length_eq_zero_iff
  cases l.header with
  | host =>
      show (if 4 = 5 + l.rest.length then none else some l.rest) = some l.rest
      rw [if_neg (by omega)]
  | contentLength =>
      show (if 15 = 15 + l.rest.length then none else some (l.rest.drop 1)) = _
      by_cases hrest : l.rest = []
      · rw [if_pos (by rw [hend.mpr hrest])]
        simp [hrest]
      · rw [if_neg (by rw [← hend] at hrest; omega)]
        simp [hrest]
  | contentType =>
      show (if 13 = 13 + l.rest.length then none else some (l.rest.drop 1)) = _
      by_cases hrest : l.rest = []
      · rw [if_pos (by rw [hend.mpr hrest])]
        simp [hrest]
      · rw [if_neg (by rw [← hend] at hrest; omega)]
        simp [hrest]

/-- It is the value exactly with the space that the offset is for. -/
theorem valueBehind_eq_iff (l : HeaderLine) :
    valueBehind l.header.word l.text = some l.value
      ↔ (l.spaced = true ↔ l.header ≠ .host) := by
  rw [valueBehind_text]
  unfold rest
  cases l.spaced with
  | true =>
      have hone : bytes " " ++ l.value = 32 :: l.value := rfl
      by_cases hhost : l.header = .host
      · simp [hhost, hone]
      · simp [hhost, hone]
  | false =>
      by_cases hhost : l.header = .host
      · simp [hhost]
      · cases hv : l.value with
        | nil => simp [hhost]
        | cons b v => simp [hhost]

/-- The line has the space that its offset is for, and nothing in the
value is recognised before the name. -/
structure Plain (l : HeaderLine) : Prop where
  space : l.spaced = true ↔ l.header ≠ .host
  noMethod : ∀ m : Method, ¬ m.word <:+: l.value
  noVersion : Pattern.search http11 l.value = false
  noHost : l.header ≠ .host → ¬ bytes "Host:" <:+: l.value
  noLength : l.header = .contentType → ¬ bytes "Content-length:" <:+: l.value

/-- With neither a method nor a version in the value, the line is taken
for what its name says exactly when no other name is in the value that
is tried first. -/
theorem attribOf_eq_iff (l : HeaderLine) (hnamed : named l.text = none)
    (hver : Pattern.search http11 l.text = false) :
    attribOf l.text = some (l.header.attrib l.value)
      ↔ valueBehind l.header.word l.text = some l.value
        ∧ (l.header ≠ .host → ¬ bytes "Host:" <:+: l.value)
        ∧ (l.header = .contentType → ¬ bytes "Content-length:" <:+: l.value) := by
  have hown := l.name_infix
  have hhost : l.header ≠ .host →
      (bytes "Host:" <:+: l.text ↔ bytes "Host:" <:+: l.value) :=
    fun hne => l.infix_text_iff (Header.apart_host hne)
  have hlength : l.header = .contentType →
      (bytes "Content-length:" <:+: l.text
        ↔ bytes "Content-length:" <:+: l.value) := fun htype =>
    l.infix_text_iff (htype ▸ Header.apart_length)
  unfold attribOf
  rw [hnamed]
  dsimp only
  rw [if_neg (by rw [hver]; exact Bool.false_ne_true)]
  cases hheader : l.header with
  | host =>
      rw [hheader] at hown
      have hself : bytes "Host:" <:+: l.text := hown
      rw [if_pos hself]
      simp [Header.attrib, Header.word]
  | contentLength =>
      rw [hheader] at hown hhost
      have hself : bytes "Content-length:" <:+: l.text := hown
      by_cases hv : bytes "Host:" <:+: l.value
      · rw [if_pos ((hhost (by simp)).mpr hv)]
        simp [Header.attrib, hv]
      · rw [if_neg (mt (hhost (by simp)).mp hv), if_pos hself]
        simp [Header.attrib, Header.word, hv]
  | contentType =>
      rw [hheader] at hown hhost
      have hself : bytes "Content-type:" <:+: l.text := hown
      by_cases hv : bytes "Host:" <:+: l.value
      · rw [if_pos ((hhost (by simp)).mpr hv)]
        simp [Header.attrib, hv]
      rw [if_neg (mt (hhost (by simp)).mp hv)]
      by_cases hlen : bytes "Content-length:" <:+: l.value
      · rw [if_pos ((hlength hheader).mpr hlen)]
        simp [Header.attrib, hlen]
      · rw [if_neg (mt (hlength hheader).mp hlen), if_pos hself]
        simp [Header.attrib, Header.word, hv, hlen]

/-- A line stores its value in its field exactly when it is plain. -/
theorem attribOf_text_iff (l : HeaderLine) :
    attribOf l.text = some (l.header.attrib l.value) ↔ l.Plain := by
  have hother : ∀ {a : Attrib}, attribOf l.text = some a →
      (∀ v, a ≠ l.header.attrib v) →
        attribOf l.text ≠ some (l.header.attrib l.value) := by
    intro a ha hne h
    rw [ha] at h
    exact hne l.value (Option.some.inj h)
  cases hnamed : named l.text with
  | some m =>
      have hmethod : attribOf l.text = some (.method m) := by
        unfold attribOf
        rw [hnamed]
      refine iff_of_false (hother hmethod ?_) ?_
      · intro v
        cases l.header <;> exact fun h => nomatch h
      · intro h
        have := l.named_text_eq_none_iff.mpr h.noMethod
        rw [hnamed] at this
        cases this
  | none =>
      have hmethods := l.named_text_eq_none_iff.mp hnamed
      cases hver : Pattern.search http11 l.text with
      | true =>
          have hversion : attribOf l.text = some .version := by
            unfold attribOf
            rw [hnamed]
            exact if_pos hver
          refine iff_of_false (hother hversion ?_) ?_
          · intro v
            cases l.header <;> exact fun h => nomatch h
          · intro h
            rw [version_text, h.noVersion] at hver
            cases hver
      | false =>
          rw [attribOf_eq_iff l hnamed hver, valueBehind_eq_iff]
          rw [version_text] at hver
          constructor
          · intro h
            exact ⟨h.1, hmethods, hver, h.2.1, h.2.2⟩
          · intro h
            exact ⟨h.space, h.noHost, h.noLength⟩

end HeaderLine

-- ================================================================ the object

/-- Two attributes leave the same object if they are the same, or if
neither changes it. -/
theorem store_eq_iff (a b : Attrib) (p : HttpParse) :
    a.store p = b.store p ↔ a = b ∨ (a.store p = p ∧ b.store p = p) := by
  obtain ⟨version, originData, requestMethod, route, host, fileType,
    fileLength⟩ := p
  cases a <;> cases b <;> simp [Attrib.store]
  all_goals grind

/-- `setting_attrib` stores the line's value in its field, and changes
nothing else. -/
def HeaderLine.Stored (l : HeaderLine) (p : HttpParse) : Prop :=
  settingAttrib p l.text = .ok ((l.header.attrib l.value).store p)

/-- The object holds the value already, and whatever the line is taken
for as well. -/
def HeaderLine.Settled (l : HeaderLine) (p : HttpParse) : Prop :=
  (l.header.attrib l.value).store p = p
    ∧ ∃ a, attribOf l.text = some a ∧ a.store p = p

/-- When a header field is stored as it is. For every line of a header
name, a space or none, and a value, and for every object: the field
holds the value and nothing else has changed exactly when there is no
space behind `Host:` and one behind the other two names, the value holds
no method word, no version and no header name that is tried before the
line's own; or when the object holds the value already, and so it does
what the line is taken for instead. -/
theorem header_stored_iff (l : HeaderLine) (p : HttpParse) :
    l.Stored p ↔ l.Plain ∨ l.Settled p := by
  unfold HeaderLine.Stored HeaderLine.Settled
  rw [settingAttrib_eq, ← l.attribOf_text_iff]
  cases attribOf l.text with
  | none => simp
  | some a =>
      dsimp only
      rw [Except.ok.injEq, store_eq_iff]
      simp [and_comm]

/-- The host of a request, behind a space: it is stored with the space. -/
theorem host_keeps_space : ∃ l : HeaderLine,
    l.text = bytes "Host: localhost:23333" ∧ l.value = bytes "localhost:23333"
      ∧ ∀ p : HttpParse, ¬ l.Stored p := by
  have hall : (bytes "localhost:23333").all (fun b => b ≠ cr ∧ b ≠ lf)
      = true := by
    decide
  refine ⟨⟨.host, true, bytes "localhost:23333", by decide,
    by simpa using hall⟩, rfl, rfl, ?_⟩
  intro p h
  have hrun : settingAttrib p (bytes "Host: localhost:23333")
      = .ok { p with hostStr := bytes " localhost:23333" } := rfl
  have hhost : bytes " localhost:23333" = bytes "localhost:23333" :=
    congrArg HttpParse.hostStr (Except.ok.inj (hrun.symm.trans h))
  exact absurd hhost (by decide)

end TrashyServer.Tool
