/-
Whether the request line decides what is served.

`setting_attrib` runs over every line of the message and looks for the
method words anywhere in it, so a header or a body line with one of
them overwrites the method. The route is the request line's; but a
target with exactly one `?` ends the construction, and so does a later
line that ends in a header name. `requestLine_decides_iff` has no other
case.
-/
import TrashyServer.Tool.Proofs.Construct

namespace TrashyServer.Tool

/-- No space, CR, LF or NUL inside. -/
def Word (s : Str) : Prop := ∀ b ∈ s, b ≠ 32 ∧ b ≠ cr ∧ b ≠ lf ∧ b ≠ nul

instance (s : Str) : Decidable (Word s) :=
  List.decidableBAll _ s

theorem Method.word_word (m : Method) : Word m.word := by
  cases m <;> decide

/-- `M SP target SP version`. -/
structure RequestLine where
  method : Method
  target : Str
  version : Str
  target_word : Word target
  version_word : Word version

namespace RequestLine

variable (r : RequestLine)

/-- The line without its CRLF. -/
def line : Str :=
  r.method.word ++ bytes " " ++ r.target ++ bytes " " ++ r.version

/-- The buffer with the request line, any text behind its CRLF, the
NUL, and whatever lies behind that. -/
def received (rest behind : Str) : Str :=
  r.line ++ crlf ++ rest ++ nul :: behind

theorem line_plain : ∀ b ∈ r.line, b ≠ cr ∧ b ≠ nul := by
  intro b hb
  unfold line at hb
  simp only [List.mem_append] at hb
  have hword : ∀ {s : Str}, Word s → b ∈ s → b ≠ cr ∧ b ≠ nul :=
    fun hs hbs => ⟨(hs b hbs).2.1, (hs b hbs).2.2.2⟩
  have hspace : b ∈ bytes " " → b ≠ cr ∧ b ≠ nul := fun hbs => by
    rw [List.mem_singleton.mp hbs]
    decide
  rcases hb with (((hb | hb) | hb) | hb) | hb
  · exact hword r.method.word_word hb
  · exact hspace hb
  · exact hword r.target_word hb
  · exact hspace hb
  · exact hword r.version_word hb

/-- The text in the buffer. -/
theorem cut_received (rest behind : Str) :
    cut (r.received rest behind) = r.line ++ (crlf ++ cut rest) := by
  have hline : nul ∉ r.line := fun h => (r.line_plain _ h).2 rfl
  have hcrlf : nul ∉ crlf := by decide
  unfold received
  rw [cut_append_nul, List.append_assoc, cut_append hline, cut_append hcrlf]

/-- The request line is the first line. -/
theorem lines_received (rest behind : Str) :
    lines (cut (r.received rest behind)) = r.line :: lines (cut rest) := by
  rw [cut_received]
  exact Search.pieces_append (cut rest) fun h => (r.line_plain _ h).1 rfl

/-- The target is the second word on it. -/
theorem target_received (rest behind : Str) :
    Tool.target (cut (r.received rest behind)) = some r.target := by
  have hspace : ∀ {s : Str}, Word s → (32 : UInt8) ∉ s :=
    fun hs h => (hs _ h).1 rfl
  have hwords : words r.line
      = r.method.word :: r.target :: words r.version := by
    have hsplit : r.line
        = r.method.word ++ ([32] ++ (r.target ++ ([32] ++ r.version))) := by
      unfold line
      simp only [List.append_assoc]
      rfl
    unfold words
    rw [hsplit]
    exact (Search.pieces_append _ (hspace r.method.word_word)).trans
      (congrArg _ (Search.pieces_append _ (hspace r.target_word)))
  unfold Tool.target
  rw [lines_received, List.head?_cons, Option.bind_some, hwords]
  rfl

/-- The request line names a method. -/
theorem named_line : named r.line ≠ none := by
  refine named_ne_none (m := r.method) ⟨[], ?_, ?_⟩
  · exact bytes " " ++ r.target ++ bytes " " ++ r.version
  · simp [line]

end RequestLine

/-- When the request line alone decides. For every request line, every
text behind it and every contents of the members without an
initialiser: the object is made, with the request line's method and
target, exactly when the target does not hold exactly one `?`, no line
of the text cuts past its end, and the last CRLF-terminated line that
names a method, the request line included, names the request line's. -/
theorem requestLine_decides_iff (r : RequestLine) (raw : Raw)
    (rest behind : Str) :
    (∃ p, httpParse raw (r.received rest behind) = .ok p
        ∧ p.requestMethod = some r.method ∧ p.route = r.target)
      ↔ r.target.count question ≠ 1
          ∧ (∀ line ∈ lines (cut rest), ¬ CutsPastEnd line)
          ∧ lastNamed (r.line :: lines (cut rest)) = some r.method := by
  have hmem : nul ∈ r.received rest behind :=
    List.mem_append_right _ (List.mem_cons_self ..)
  have hlines := r.lines_received rest behind
  have htarget := r.target_received rest behind
  have hnamed : lastNamed (r.line :: lines (cut rest)) ≠ none := fun h =>
    r.named_line (lastNamed_eq_none_iff.mp h _ (List.mem_cons_self ..))
  have hmethod : ∀ m : Option Method,
      (lastNamed (r.line :: lines (cut rest))).or m
        = lastNamed (r.line :: lines (cut rest)) := fun m => by
    cases hl : lastNamed (r.line :: lines (cut rest)) with
    | none => exact absurd hl hnamed
    | some _ => rfl
  constructor
  · rintro ⟨p, hp, hpm, _⟩
    obtain ⟨t, ht, hone, hcut⟩ := (httpParse_ok_iff raw hmem).mp ⟨p, hp⟩
    obtain ⟨_, _, hpm'⟩ := httpParse_ok hmem hp
    rw [htarget, Option.some.injEq] at ht
    rw [hlines] at hcut hpm'
    refine ⟨by rw [ht]; exact hone, ?_, ?_⟩
    · exact fun line hline => hcut line (List.mem_cons_of_mem _ hline)
    · rw [← hmethod raw.requestMethod, ← hpm', hpm]
  · rintro ⟨hone, hcut, hlast⟩
    obtain ⟨p, hp⟩ := (httpParse_ok_iff raw hmem).mpr ⟨r.target, htarget, hone, by
      rw [hlines, List.forall_mem_cons]
      exact ⟨fun h => r.named_line h.1, hcut⟩⟩
    obtain ⟨_, hroute, hpm⟩ := httpParse_ok hmem hp
    refine ⟨p, hp, ?_, Option.some.inj (hroute.symm.trans htarget)⟩
    rw [hpm, hlines, hmethod, hlast]

/-- `PUT /a HTTP/1.1`. -/
def putLine : RequestLine where
  method := .put
  target := bytes "/a"
  version := bytes "HTTP/1.1"
  target_word := by decide
  version_word := by decide

/-- One request line, two handlers: a header value with `GET` in it
turns the PUT into a GET. -/
theorem put_served_as_get :
    (httpParse ⟨0, none⟩ (putLine.received (bytes "\r\n") [])).map
        (fun p => dispatch p.requestMethod) = .ok .putMethod
      ∧ (httpParse ⟨0, none⟩
          (putLine.received (bytes "Note: GET\r\n\r\n") [])).map
        (fun p => dispatch p.requestMethod) = .ok .getMethod := by
  decide

end TrashyServer.Tool
