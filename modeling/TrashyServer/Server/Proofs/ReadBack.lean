/-
What a client can read out of an answer.

A reply is a status line, fields and a body. `readReply` takes one
apart: lines up to the first empty one (Lib/Head.lean), the status
looked up by its text, a field cut at its first colon, and the body what
is left. The header of a GET and of the default response is such a head
(`pageHeader_eq_render`), provided nothing that is printed into it brings
a CR or a NUL of its own; the texts of the table do not, and a date has
neither.

So behind the strings the pointers were given out for, a client gets
back the status the server has come to, the date, and the body byte for
byte, whatever is in it (`reply_read_back`). The default response's body
is its text and the NUL written behind it.
-/
import TrashyServer.Lib.Head
import TrashyServer.Server.Proofs.Answers
import TrashyServer.Server.Proofs.Drain
import TrashyServer.Server.Status

namespace TrashyServer.Server

open Config (colon)
open Tool

-- ================================================================ the reader

/-- What a client makes of an answer. -/
structure Reply where
  version : Str
  status : StatusCode
  fields : List (Str × Str)
  body : Str
deriving DecidableEq

/-- A line cut at the first `c`. -/
def cutAt (c : UInt8) (line : Str) : Str × Str :=
  (line.takeWhile (· ≠ c), (line.dropWhile (· ≠ c)).drop 1)

/-- The answer taken apart. -/
def readReply (s : Str) : Option Reply :=
  match Head.read cr lf [] s with
  | some (first :: fields, body) =>
      some ⟨(cutAt 32 first).1, statusCodeOf (cutAt 32 first).2,
        fields.map (cutAt colon), body⟩
  | _ => none

theorem cutAt_eq {c : UInt8} {a : Str} (h : c ∉ a) (b : Str) :
    cutAt c (a ++ c :: b) = (a, b) := by
  unfold cutAt
  rw [takeWhile_at h, dropWhile_at h]
  rfl

-- ================================================================= the table

/-- Each number leads to its text, and the text back to its
enumerator. -/
theorem statusCodeOf_num :
    ∀ x ∈ statusCodes, statusCodeOf (statusCodeNum x.1.value) = x.1 := by
  decide +kernel

/-- No text brings a CR or a NUL. -/
theorem clean_statusCodes : ∀ x ∈ statusCodes, cr ∉ x.2 ∧ nul ∉ x.2 := by
  decide +kernel

/-- The numbers that have a text. -/
def numbers : List Nat := statusCodes.map (·.1.value)

/-- What a client reads out of the text of a number: the number, or else
`unknown`. -/
theorem value_statusCodeOf (n : Nat) :
    (statusCodeOf (statusCodeNum n)).value = if n ∈ numbers then n else 0 := by
  split
  · next h =>
    obtain ⟨x, hx, hvalue⟩ := List.mem_map.mp h
    rw [← hvalue, statusCodeOf_num x hx]
  · next h =>
    have hnone : statusCodes.find? (·.1.value = n) = none := by
      apply List.find?_eq_none.mpr
      intro x hx heq
      exact h (List.mem_map.mpr ⟨x, hx, of_decide_eq_true heq⟩)
    unfold statusCodeNum
    rw [hnone]
    decide

theorem clean_statusCodeNum (n : Nat) :
    cr ∉ statusCodeNum n ∧ nul ∉ statusCodeNum n := by
  unfold statusCodeNum
  split
  · next x hx => exact clean_statusCodes x (List.mem_of_find?_eq_some hx)
  · exact ⟨List.not_mem_nil, List.not_mem_nil⟩

-- ================================================================ the header

/-- The lines of a header. -/
def headLines (statusText date : Str) : List Str :=
  [bytes "HTTP/1.1 " ++ statusText,
    bytes "Server: My server/2.3.3 (Debain OS)",
    bytes "Content-Type: text/html",
    bytes "Date:" ++ date]

theorem pageHeader_eq_render (statusText date : Str) :
    pageHeader statusText date
      = Head.render cr lf (headLines statusText date) := by
  have hmiddle : bytes
        "\r\nServer: My server/2.3.3 (Debain OS)\r\nContent-Type: text/html\r\nDate:"
      = crlf ++ bytes "Server: My server/2.3.3 (Debain OS)" ++ crlf
        ++ bytes "Content-Type: text/html" ++ crlf ++ bytes "Date:" := by
    decide
  have hend : bytes "\r\n\r\n" = crlf ++ crlf := by decide
  unfold pageHeader Head.render headLines
  rw [hend, hmiddle]
  simp [crlf]

/-- The lines hold no CR, if what is printed into them has none. -/
theorem clean_headLines {statusText date : Str} (htext : cr ∉ statusText)
    (hdate : cr ∉ date) :
    ∀ l ∈ headLines statusText date, l ≠ [] ∧ cr ∉ l := by
  have hmem : ∀ {a b : Str}, cr ∉ a → cr ∉ b → cr ∉ a ++ b := by
    intro a b ha hb h
    exact (List.mem_append.mp h).elim ha hb
  intro l hl
  rcases List.mem_cons.mp hl with rfl | hl
  · exact ⟨List.append_ne_nil_of_left_ne_nil (by decide) _,
      hmem (by decide) htext⟩
  rcases List.mem_cons.mp hl with rfl | hl
  · exact ⟨by decide, by decide⟩
  rcases List.mem_cons.mp hl with rfl | hl
  · exact ⟨by decide, by decide⟩
  rcases List.mem_cons.mp hl with rfl | hl
  · exact ⟨List.append_ne_nil_of_left_ne_nil (by decide) _,
      hmem (by decide) hdate⟩
  · cases hl

/-- And no NUL: all of it is printed. -/
theorem cut_pageHeader {statusText date : Str} (htext : nul ∉ statusText)
    (hdate : nul ∉ date) :
    cut (pageHeader statusText date) = pageHeader statusText date := by
  apply cut_of_nulFree
  unfold pageHeader
  simp only [List.mem_append, not_or]
  exact ⟨⟨⟨⟨by decide, htext⟩, by decide⟩, hdate⟩, by decide⟩

/-- The fields a client finds. -/
def replyFields (date : Str) : List (Str × Str) :=
  [(bytes "Server", bytes " My server/2.3.3 (Debain OS)"),
    (bytes "Content-Type", bytes " text/html"), (bytes "Date", date)]

/-- A header and a body are taken apart again, whatever the body is. -/
theorem readReply_pageHeader {statusText date : Str} (htext : cr ∉ statusText)
    (hdate : cr ∉ date) (body : Str) :
    readReply (pageHeader statusText date ++ body)
      = some ⟨bytes "HTTP/1.1", statusCodeOf statusText, replyFields date,
          body⟩ := by
  have hfirst : cutAt 32 (bytes "HTTP/1.1 " ++ statusText)
      = (bytes "HTTP/1.1", statusText) :=
    cutAt_eq (a := bytes "HTTP/1.1") (by decide) statusText
  have hserver : cutAt colon (bytes "Server: My server/2.3.3 (Debain OS)")
      = (bytes "Server", bytes " My server/2.3.3 (Debain OS)") := by decide
  have htype : cutAt colon (bytes "Content-Type: text/html")
      = (bytes "Content-Type", bytes " text/html") := by decide
  have hlast : cutAt colon (bytes "Date:" ++ date) = (bytes "Date", date) :=
    cutAt_eq (a := bytes "Date") (by decide) date
  unfold readReply
  rw [pageHeader_eq_render, Head.read_render (clean_headLines htext hdate)]
  unfold headLines
  dsimp only
  rw [hfirst, List.map_cons, List.map_cons, List.map_cons, List.map_nil,
    hserver, htype, hlast]
  rfl

-- ================================================================ the answers

/-- The status a request comes to, and what is sent behind the header;
for a GET and for the default response. -/
def Call.told (c : Call) (d : Str) : Option (Nat × Str) :=
  match dispatch (c.method d) with
  | .getMethod =>
      let r := c.opened ((Tool.target (cut (c.memory d))).getD [])
      some (r.responseStatus, c.page r)
  | .defaultMethod => some (500, c.text ++ [nul])
  | _ => none

theorem message_of_told {c : Call} {d : Str} {status : Nat} {body : Str}
    (h : c.told d = some (status, body)) :
    c.message d = cut (c.headerBuff status) ++ body := by
  unfold Call.told at h
  unfold Call.message
  cases hhandler : dispatch (c.method d) with
  | getMethod =>
      rw [hhandler] at h
      cases h
      rfl
  | defaultMethod =>
      rw [hhandler] at h
      cases h
      exact List.append_assoc ..
  | postMethod | headMethod | putMethod =>
      rw [hhandler] at h
      cases h

/-- What a client makes of the answer to such a request. -/
theorem readReply_answer {c : Call} {d : Str} {status : Nat} {body : Str}
    (hread : c.read = some d) (htold : c.told d = some (status, body))
    (htexts : c.statusText = statusCodeNum)
    (hdate : cr ∉ c.date ∧ nul ∉ c.date)
    (hall : (c.message d).length ≤ c.accepts) :
    readReply c.answer
      = some ⟨bytes "HTTP/1.1", statusCodeOf (statusCodeNum status),
          replyFields c.date, body⟩ := by
  obtain ⟨hcr, hnul⟩ := clean_statusCodeNum status
  have hheader : c.headerBuff status
      = pageHeader (statusCodeNum status) c.date := by
    unfold Call.headerBuff
    rw [htexts]
  unfold Call.answer
  rw [hread]
  dsimp only
  rw [List.take_of_length_le hall, message_of_told htold, hheader,
    cut_pageHeader hnul hdate.2]
  exact readReply_pageHeader hcr hdate.1 body

/-- An answer can be read back. Of every GET and of every request that
gets the default response, as far as the texts of the table are still
where the pointers went and the socket takes all of it: a client reads
out the version, the status that the server has come to (`unknown` for
one that is not in the table), the fields with the date in them, and the
page, to the byte. -/
theorem reply_read_back {c : Call} {d : Str} {status : Nat} {body : Str}
    (hread : c.read = some d) (htold : c.told d = some (status, body))
    (htexts : c.statusText = statusCodeNum)
    (hdate : cr ∉ c.date ∧ nul ∉ c.date)
    (hall : (c.message d).length ≤ c.accepts) :
    ∃ code : StatusCode,
      readReply c.answer
          = some ⟨bytes "HTTP/1.1", code, replyFields c.date, body⟩
        ∧ code.value = if status ∈ numbers then status else 0 :=
  ⟨statusCodeOf (statusCodeNum status),
    readReply_answer hread htold htexts hdate hall, value_statusCodeOf status⟩

/-- A page of two pieces, -/
def twoPieces (fileno : Int) : List Str :=
  if fileno = 9 then [bytes "he", bytes "llo"] else []

theorem mem_twoPieces {fileno : Int} {d : Str} (h : d ∈ twoPieces fileno) :
    d ≠ [] ∧ d.length ≤ maxline := by
  have hboth : ∀ d ∈ [bytes "he", bytes "llo"], d ≠ [] ∧ d.length ≤ maxline := by
    decide
  unfold twoPieces at h
  split at h
  · exact hboth d h
  · cases h

/-- and a client that asks for it. -/
def hello : Call :=
  { Call.post with
    read := some (bytes "GET / HTTP/1.1\r\n\r\n" ++ [nul])
    statusText := statusCodeNum
    date := bytes "Sun, 06 Nov 1994 08:49:37 GMT"
    firstOpen := (9, .other)
    pages := ⟨fun fileno => (twoPieces fileno).flatten, fun fileno =>
      ⟨twoPieces fileno, fun _ hd => (mem_twoPieces hd).1,
        fun _ hd => (mem_twoPieces hd).2, List.prefix_refl _⟩⟩
    accepts := 1024 }

theorem reply_read_back_hello : ∃ code : StatusCode,
    readReply hello.answer
        = some ⟨bytes "HTTP/1.1", code, replyFields hello.date, bytes "hello"⟩
      ∧ code.value = 200 :=
  @reply_read_back hello (bytes "GET / HTTP/1.1\r\n\r\n" ++ [nul]) 200
    (bytes "hello") rfl (by decide +kernel) rfl (by decide) (by decide +kernel)

end TrashyServer.Server
