/-
What a PUT comes to.

`try_write` takes the name of the file out of `target_file`, which the
constructors leave empty and nothing sets before; the name is cut from
behind the end of nothing (`fromRouteGetName_nil`). So every PUT ends in
that exception, or in an earlier one, before a file is opened
(`putMethod_throws`), and none does what it is for (`put_never`).
-/
import TrashyServer.Server.Put
import TrashyServer.Tool.Proofs.Construct

namespace TrashyServer.Server

open Tool
open Dir (Utils)

/-- A cut gives something or throws `std::out_of_range`. -/
theorem substr_cases (s : Str) (pos len : Nat) :
    (∃ t, substr s pos len = .ok t)
      ∨ substr s pos len = .error .substrRange := by
  unfold substr
  split
  · exact .inr rfl
  · exact .inl ⟨_, rfl⟩

/-- An empty target has no name to take, whatever byte is read as its
last. -/
theorem fromRouteGetName_nil (stray : UInt8) :
    fromRouteGetName stray [] = .error .substrRange := by
  have hend : ([] : Str).length < before (Dir.rfindChar [] Config.slash) := by
    decide
  unfold fromRouteGetName
  split
  · exact substr_of_lt hend _
  · exact substr_of_lt hend _

/-- The body is found or not; the target is left alone. -/
theorem setPageData_cases (r : PutResponse) :
    (∃ pageData, r.setPageData = .ok { r with pageData := pageData })
      ∨ r.setPageData = .error .substrRange := by
  unfold PutResponse.setPageData
  rcases substr_cases r.requestData
      (offset (rfind (bytes "\r\n\r\n") r.requestData) 0)
      r.requestData.length with ⟨pageData, hdata⟩ | hdata
  · left
    refine ⟨pageData, ?_⟩
    dsimp only
    rw [hdata, ok_bind]
  · right
    dsimp only
    rw [hdata, error_bind]

/-- What a PUT is for: the file a GET of the route would open, and no
other, is created or overwritten, and the status says which of the
two. -/
def PutsRoute (pagesPath : Str) (store : Store) (p : HttpParse)
    (result : Except PutFault PutOutcome) : Prop :=
  ∃ out p', result = .ok out ∧ setPath pagesPath p = .ok p'
    ∧ (∃ data, out.store.file (cut p'.route) = some data)
    ∧ (∀ name, name ≠ cut p'.route → out.store.file name = store.file name)
    ∧ out.response.responseStatus
      = if (store.file (cut p'.route)).isSome then 204 else 201

section

variable (pagesPath : Str) (stray : UInt8) (statusText : Nat → Str)
  (date : Str) (accepts old : Nat) (store : Store) (utils : Utils)

/-- Writing ends in an exception before a file is opened, -/
theorem tryWrite_throws {r : PutResponse} (h : r.targetFile = []) :
    r.tryWrite pagesPath stray store utils
      = .error (.library .substrRange) := by
  unfold PutResponse.tryWrite
  rcases setPageData_cases r with ⟨pageData, hdata⟩ | hdata
  · rw [hdata]
    show (library (fromRouteGetName stray r.targetFile) >>= _) = _
    rw [h, fromRouteGetName_nil]
    rfl
  · rw [hdata]
    rfl

/-- and so does every PUT. -/
theorem putMethod_throws (p : HttpParse) :
    putMethod pagesPath stray statusText date accepts old store utils p
      = .error (.library .substrRange) := by
  unfold putMethod
  by_cases hroute : p.route = []
  · rw [setPath_empty pagesPath hroute]
    rfl
  · rw [setPath_eq pagesPath hroute]
    show PutResponse.put pagesPath stray statusText date accepts store utils
      (.new old _ p.originData) = _
    unfold PutResponse.put
    rw [tryWrite_throws pagesPath stray store utils rfl]
    rfl

/-- No PUT does what it is for: not for any pages path, request, files or
state of the search, and whatever is left open. -/
theorem put_never (p : HttpParse) :
    ¬ PutsRoute pagesPath store p
      (putMethod pagesPath stray statusText date accepts old store utils
        p) := by
  intro h
  obtain ⟨out, p', hout, -⟩ := h
  rw [putMethod_throws] at hout
  cases hout

end

/-- No files yet, and every name can be opened. -/
def emptyStore : Store where
  file := fun _ => none
  entries := fun _ => []
  dirFails := fun _ => false
  openFails := fun _ => false

/-- A PUT of `/a.txt`, which is parsed and dispatched as one, throws. -/
theorem put_a_throws : ∃ p,
    httpParse ⟨0, none⟩ (bytes "PUT /a.txt HTTP/1.1\r\n\r\nhi" ++ [nul]) = .ok p
      ∧ p.route = bytes "/a.txt" ∧ dispatch p.requestMethod = .putMethod
      ∧ ¬ PutsRoute (bytes "www/") emptyStore p
        (putMethod (bytes "www/") 0 (fun _ => bytes "201 Created")
          (bytes "today") 1024 0 emptyStore .start p) := by
  refine ⟨⟨0, bytes "PUT /a.txt HTTP/1.1\r\n\r\nhi", some .put,
    bytes "/a.txt", [], [], []⟩, by decide, rfl, rfl, ?_⟩
  intro h
  obtain ⟨out, p', hout, -⟩ := h
  rw [putMethod_throws] at hout
  cases hout

end TrashyServer.Server
