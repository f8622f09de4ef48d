/-
Which PUT bodies are taken as they are.

`set_page_data` cuts the request at its last blank line, and in front of
it: the page starts with the blank line, and it is the last part of a
body that has blank lines of its own (`setPageData_eq`). So the page is
the body only where the body starts with a blank line and has no other
(`put_body_iff`). What `update_page_data` is handed it writes whole
(`writes`).
-/
import TrashyServer.Server.Put

namespace TrashyServer.Server

/-- The blank line between head and body. -/
def blank : Str := bytes "\r\n\r\n"

/-- A request with a body: the first blank line ends the head. -/
structure PutRequest where
  head : Str
  body : Str
  first : Search.find blank (head ++ (blank ++ body)) = some head.length
  nulFree : nul ∉ body

def PutRequest.text (q : PutRequest) : Str := q.head ++ (blank ++ q.body)

-- =================================================================== the cut

/-- A text is cut in front of its last blank line. -/
theorem setPageData_eq {r : PutResponse} {a b : Str}
    (htext : r.requestData = a ++ (blank ++ b))
    (hlast : ¬ blank <:+: (blank ++ b).drop 1) :
    r.setPageData = .ok { r with pageData := blank ++ b } := by
  have hne : blank ≠ [] := List.cons_ne_nil _ _
  have hinfix : blank.reverse <:+: r.requestData.reverse := by
    apply List.reverse_infix.mpr
    exact ⟨a, b, by rw [htext, List.append_assoc]⟩
  obtain ⟨j, hj⟩ := Search.exists_find hinfix
  obtain ⟨a', b', hab, hb, hlast'⟩ := Search.find_reverse hne hj
  obtain ⟨rfl, hrest⟩ := Search.last_unique (htext.symm.trans hab) hlast hlast'
  have hlen : r.requestData.length = a.length + blank.length + b'.length := by
    rw [hab, List.length_append, List.length_append, Nat.add_assoc]
  have hpos : rfind blank r.requestData = some a.length := by
    unfold rfind
    rw [hj, Option.map_some]
    congr 1
    omega
  have hcut : (r.requestData.drop a.length).take r.requestData.length
      = blank ++ b := by
    have hdrop : r.requestData.drop a.length = blank ++ b := by
      rw [htext, List.drop_left]
    rw [hdrop]
    apply List.take_of_length_le
    rw [← hdrop, List.length_drop]
    omega
  have hsubstr := substr_of_le (by omega : a.length ≤ r.requestData.length)
    r.requestData.length
  unfold PutResponse.setPageData
  show (substr r.requestData (offset (rfind blank r.requestData) 0) _ >>= _) = _
  rw [hpos, offset, Nat.add_zero, hsubstr, hcut, ok_bind]

-- ================================================================= the page

/-- `update_page_data` leaves these bytes as the whole content of the
file it opens, and the other files alone. -/
def Writes (r : PutResponse) (body : Str) : Prop :=
  ∀ (store : Store) (rootDir : Str),
    store.openFails (cut (rootDir ++ r.targetFile)) = false →
      ∃ store', r.updatePageData store rootDir r.pageData = some store'
        ∧ store'.file (cut (rootDir ++ r.targetFile)) = some body
        ∧ ∀ name, name ≠ cut (rootDir ++ r.targetFile) →
          store'.file name = store.file name

/-- It writes the page, whatever file it is for. -/
theorem writes (r : PutResponse) : Writes r r.pageData := by
  intro store rootDir hopen
  refine ⟨store.write (cut (rootDir ++ r.targetFile)) r.pageData, ?_, ?_, ?_⟩
  · unfold PutResponse.updatePageData
    dsimp only
    rw [hopen, if_neg Bool.false_ne_true]
  · exact if_pos rfl
  · intro name hname
    exact if_neg hname

/-- The body becomes the page, and the page the content of the file,
whatever `try_write` makes the file's name. -/
def BodyTaken (old : Nat) (path : Str) (q : PutRequest) : Prop :=
  ∃ r, (PutResponse.new old path q.text).setPageData = .ok r
    ∧ r.pageData = q.body
    ∧ ∀ targetFile, Writes { r with targetFile := targetFile } q.body

/-- When a PUT stores its body. For every request with a blank line
behind its head and any body without a NUL, whatever its route and
whatever `response_status` holds: the page is exactly the body, and is
written as the whole content of the file, exactly when the body itself
starts with a blank line and has no other. -/
theorem put_body_iff (old : Nat) (path : Str) (q : PutRequest) :
    BodyTaken old path q
      ↔ blank <+: q.body ∧ ¬ blank <:+: q.body.drop 1 := by
  have hinfix : blank <:+: q.text :=
    ⟨q.head, q.body, List.append_assoc ..⟩
  obtain ⟨a, b, htext, hlast⟩ :=
    Search.exists_last (List.cons_ne_nil _ _) hinfix
  have hpage : (PutResponse.new old path q.text).setPageData
      = .ok { PutResponse.new old path q.text with pageData := blank ++ b } :=
    setPageData_eq htext hlast
  constructor
  · intro h
    obtain ⟨r, hr, hbody, -⟩ := h
    rw [hpage] at hr
    cases hr
    rw [← hbody]
    exact ⟨List.prefix_append .., hlast⟩
  · intro h
    obtain ⟨⟨rest, hrest⟩, honly⟩ := h
    rw [← hrest] at honly
    have hsame : q.head ++ blank ++ (blank ++ rest) = a ++ (blank ++ b) := by
      rw [hrest, List.append_assoc]
      exact htext
    obtain ⟨-, hbody⟩ := Search.last_unique hsame honly hlast
    rw [hrest] at hbody
    rw [← hbody] at hpage
    refine ⟨_, hpage, rfl, ?_⟩
    intro targetFile
    exact writes _

/-- The body of a request is taken with the blank line in front of it. -/
theorem put_keeps_blank : ∃ q : PutRequest,
    q.text = bytes "PUT /a.txt HTTP/1.1\r\n\r\nhi" ∧ q.body = bytes "hi"
      ∧ ∀ old path, ¬ BodyTaken old path q := by
  refine ⟨⟨bytes "PUT /a.txt HTTP/1.1", bytes "hi", by decide, by decide⟩, rfl,
    rfl, ?_⟩
  intro old path h
  obtain ⟨r, hr, hbody, -⟩ := h
  have hpage : (PutResponse.new old path
      (bytes "PUT /a.txt HTTP/1.1\r\n\r\nhi")).setPageData
      = .ok { PutResponse.new old path
          (bytes "PUT /a.txt HTTP/1.1\r\n\r\nhi") with
        pageData := bytes "\r\n\r\nhi" } := rfl
  have hsame : bytes "\r\n\r\nhi" = bytes "hi" :=
    (congrArg PutResponse.pageData (Except.ok.inj (hpage.symm.trans hr))).trans
      hbody
  exact absurd hsame (by decide)

end TrashyServer.Server
