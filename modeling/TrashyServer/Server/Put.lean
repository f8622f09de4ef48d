/-
What a PUT does to the files (`http_parse::put_method` in
src/tool_util.cpp, `PUT_Response` in src/Server.cpp).

# The files

A `Store` is the contents of the files by the names they are opened
with, what is found below a directory, and which names `opendir` and an
`std::fstream` for output fail on. The globals of the directory search
are threaded through.

# What the source leaves open

- `*target.rbegin()` on an empty string is the byte before its buffer,
  `stray`.
- `response_status` has no initialiser: `old`.
- `status_code` and `get_time_stamp_net_std1().c_str()` give pointers
  into strings that are gone when `sprintf` reads them: `statusText` and
  `date` are what is found there.

The pages path is read from the configuration twice; a call of
`putMethod` gets one `pagesPath` for both (Run.lean has two).
`http_header_buff` has 1024 bytes, of which `sizeof`, the size of the
pointer, are written to the socket; `accepts` is how many of them it
takes. The calls of `logging` stand behind the exception that every PUT
ends in (Proofs/Put.lean) and are left out.
-/
import TrashyServer.Dir.Model

namespace TrashyServer.Server

open Config (slash)
open Dir (Utils)
open Tool

-- ============================================================== the library

/-- `s.rfind(p)`. -/
def rfind (p s : Str) : Option Nat :=
  (Search.find p.reverse s.reverse).map (s.length - p.length - ·)

/-- `pos - 1` for a `size_type`, `npos` included. -/
def before (pos : Option Nat) : Nat :=
  (offset pos 0 + (2 ^ 64 - 1)) % 2 ^ 64

-- ================================================================ the files

/-- The files, and how they answer. -/
structure Store where
  file : Str → Option Str
  entries : Str → List Dir.Entry
  dirFails : Str → Bool
  openFails : Str → Bool

/-- A file created or overwritten. -/
def Store.write (s : Store) (name data : Str) : Store :=
  { s with file := fun n => if n = name then some data else s.file n }

/-- How handling a request comes to an end that nobody catches: in a
library call, by the exception of `list_them`, or where `release_dir`
ends the process. -/
inductive PutFault
  | library (fault : Fault)
  | directoryFailure
  | directoryClosed
deriving DecidableEq

/-- A library call. -/
def library {α : Type} (x : Except Fault α) : Except PutFault α :=
  x.mapError .library

-- ============================================================= PUT_Response

/-- `PUT_Response`. -/
structure PutResponse where
  route : Str
  responseStatus : Nat
  requestData : Str
  pageData : Str
  targetFile : Str
deriving DecidableEq

/-- `PUT_Response(path, data)`. -/
def PutResponse.new (old : Nat) (path data : Str) : PutResponse :=
  ⟨path, old, data, [], []⟩

/-- `set_page_data`. -/
def PutResponse.setPageData (r : PutResponse) : Except Fault PutResponse := do
  let ssize := rfind (bytes "\r\n\r\n") r.requestData
  let pageData ← substr r.requestData (offset ssize 0) r.requestData.length
  .ok { r with pageData := pageData }

/-- `from_route_get_name`. -/
def fromRouteGetName (stray : UInt8) (target : Str) : Except Fault Str :=
  if target.getLast?.getD stray ≠ slash then
    let ssize := Dir.rfindChar target slash
    substr target (before ssize) target.length
  else
    let ssize := Dir.rfindChar target slash
    substr target (before ssize) (before (some target.length))

/-- `update_page_data`; `none` is its exception. -/
def PutResponse.updatePageData (r : PutResponse) (store : Store)
    (rootDir data : Str) : Option Store :=
  let target := rootDir ++ r.targetFile
  if store.openFails (cut target) then none
  else some (store.write (cut target) data)

/-- `try_write`. -/
def PutResponse.tryWrite (pagesPath : Str) (stray : UInt8) (store : Store)
    (utils : Utils) (r : PutResponse) :
    Except PutFault (PutResponse × Store × Utils) := do
  let r ← library r.setPageData
  let searchRoot := pagesPath
  let targetFile ← library (fromRouteGetName stray r.targetFile)
  let r := { r with targetFile := targetFile }
  let search : Dir.Call :=
    ⟨true, searchRoot, store.entries searchRoot, store.dirFails, targetFile⟩
  match search.run utils with
  | (.threw, _) => .error .directoryFailure
  | (.aborted, _) => .error .directoryClosed
  | (.returned, utils) =>
      if utils.fileFound then
        match r.updatePageData store searchRoot r.pageData with
        | none => .ok ({ r with responseStatus := 500 }, store, utils)
        | some store => .ok ({ r with responseStatus := 204 }, store, utils)
      else
        match r.updatePageData store searchRoot r.pageData with
        | none => .ok ({ r with responseStatus := 500 }, store, utils)
        | some store => .ok ({ r with responseStatus := 201 }, store, utils)

/-- The text `sprintf` makes of a PUT's status and route. -/
def putHeader (statusText date route : Str) : Str :=
  bytes "HTTP/1.1 " ++ statusText
    ++ bytes "\r\nServer: My server/2.3.3 (Debain OS)\r\nContent-Location:"
    ++ cut route ++ bytes "\r\nDate:" ++ date ++ bytes "\r\n\r\n"

/-- `PUT_Response::response` behind `try_write`: what `sprintf` leaves in
`http_header_buff`. -/
def PutResponse.header (statusText : Nat → Str) (date : Str)
    (r : PutResponse) : Except Fault Str :=
  let httpHeaderBuff := putHeader (statusText r.responseStatus) date r.route
  if httpHeaderBuff.length < 1024 then .ok httpHeaderBuff
  else .error .vectorRange

/-- What handling a PUT leaves: the response, the files, the globals, and
the bytes put on the socket. -/
structure PutOutcome where
  response : PutResponse
  store : Store
  utils : Utils
  sent : Str

/-- `PUT_Response::response`. -/
def PutResponse.put (pagesPath : Str) (stray : UInt8) (statusText : Nat → Str)
    (date : Str) (accepts : Nat) (store : Store) (utils : Utils)
    (r : PutResponse) : Except PutFault PutOutcome := do
  let (r, store, utils) ← r.tryWrite pagesPath stray store utils
  let httpHeaderBuff := putHeader (statusText r.responseStatus) date r.route
  if httpHeaderBuff.length < 1024 then
    .ok ⟨r, store, utils, (httpHeaderBuff.take 8).take accepts⟩
  else .error (.library .vectorRange)

/-- `put_method`. -/
def putMethod (pagesPath : Str) (stray : UInt8) (statusText : Nat → Str)
    (date : Str) (accepts old : Nat) (store : Store) (utils : Utils)
    (p : HttpParse) : Except PutFault PutOutcome := do
  let p ← library (setPath pagesPath p)
  (PutResponse.new old p.route p.originData).put pagesPath stray statusText date
    accepts store utils

end TrashyServer.Server
