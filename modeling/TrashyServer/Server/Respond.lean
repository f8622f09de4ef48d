/-
The responses of src/Server.cpp: `GET_Response::response` put together
from its parts, the two that read no file (`HEAD_Response::response` and
`POST_Response`), and the header that three of the four responses with
one print.

# GET

`written` goes as far as the call of `write`, and logs what is logged on
the way. A message that takes more than was handed over ends it
(`Stop.misuse`), and so does a library call that fails. What is logged of
the page once it is written has no part in it.

# The header

`http_header_buff` is a block of 1024 bytes from `new char[1024]`. The
`memset` behind it clears `sizeof` the pointer, 8 bytes, all of which
`sprintf` writes over. `HEAD_Response::response` then copies `MAXLINE`
bytes out of the block: those behind it are whatever the heap holds
there, and a heap that ends before that is `Fault.vectorRange`.

`status_code` and `get_time_stamp_net_std1().c_str()` give pointers into
strings that are gone when `sprintf` reads them: `statusText` and `date`
are what is found there. `*_enctype.rbegin()` on an empty string is the
byte before its buffer, `stray`.
-/
import TrashyServer.Server.Logs

namespace TrashyServer.Server

open Tool

-- ============================================================ GET_Response

/-- What ends a response before it writes. -/
inductive Stop
  | library (fault : Fault)
  | misuse (misuse : Log.Misuse)
deriving DecidableEq

/-- A library call. -/
def called {α : Type} (x : Except Fault α) : Except Stop α :=
  x.mapError .library

/-- Messages, in turn. -/
def messages (time : Stamp) (ls : List LogCall) : Except Stop Unit :=
  (printed time.text ls).mapError .misuse

/-- `GET_Response::response` up to the end of its call of `write`: the
bytes put on the socket. -/
def GetResponse.written (file : FileName) (time : Stamp) (pagesPath : Str)
    (fs : FileSystem) (d : Descriptors)
    (headerBuff : Nat → Except Fault Str) (accepts : Nat) (r : GetResponse) :
    Except Stop Str := do
  let opened := (r.tryOpen pagesPath fs).2
  messages time (r.tryOpenLogs pagesPath fs)
  messages time (suffixLogs r.route)
  let fileT ← called (getTextFileT r.route)
  messages time [typeLog fileT]
  let httpHeaderBuff ← called (headerBuff opened.responseStatus)
  let tmp := cut httpHeaderBuff
  let page ← called
    (readPage opened.responseStatus (d.reads opened.fileno).pieces)
  -- logged inside the loop, as the array fills
  messages time (pageLogs file.text opened.responseStatus
    (d.reads opened.fileno).results.values)
  .ok ((tmp ++ page).take accepts)

-- ============================================================== the header

/-- The text `sprintf` makes of a status. -/
def pageHeader (statusText date : Str) : Str :=
  bytes "HTTP/1.1 " ++ statusText
    ++ bytes "\r\nServer: My server/2.3.3 (Debain OS)\r\nContent-Type: text/html\r\nDate:"
    ++ date ++ bytes "\r\n\r\n"

/-- The size of `http_header_buff`. -/
def headerSize : Nat := 1024

/-- `sprintf(http_header_buff, …)`: what the block holds afterwards. -/
def sprintf (heap : Heap headerSize) (text : Str) : Except Fault Str :=
  if text.length < headerSize then
    .ok (text ++ nul :: heap.block.drop (text.length + 1))
  else .error .vectorRange

-- ============================================================ HEAD_Response

/-- `HEAD_Response::response`: the bytes put on the socket. -/
def headResponse (statusText : Nat → Str) (date : Str) (heap : Heap headerSize)
    (accepts : Nat) : Except Fault Str := do
  let httpHeaderBuff ← sprintf heap (pageHeader (statusText 200) date)
  let buff ← memcpy (List.replicate maxline nul) (httpHeaderBuff ++ heap.behind)
    maxline
  .ok (buff.take accepts)

-- ============================================================ POST_Response

/-- `POST_Response::enc_t`. -/
inductive Enctype
  | urlencode
  | formData
  | plain
  | unknownType
deriving DecidableEq

/-- `init_enctype`. -/
def initEnctype (stray : UInt8) (enctype : Str) : Enctype :=
  let last := enctype.getLast?.getD stray
  if last = 100 then .urlencode
  else if last = 97 then .formData
  else if last = 110 then .plain
  else .unknownType

/-- `POST_Response`. `fdatas_pair`, which nothing fills, is left out. -/
structure PostResponse where
  enctype : Enctype
  fdatas : Str
deriving DecidableEq

/-- `POST_Response(_enctype)`. -/
def PostResponse.new (stray : UInt8) (enctype : Str) : PostResponse :=
  ⟨initEnctype stray enctype, []⟩

/-- `POST_Response::response`: `parse_post_form` has no statements, and
nothing is written. -/
def PostResponse.response (_r : PostResponse) : Str := []

end TrashyServer.Server
