/-
The request parser behind the old server (`rewrite_tool::http_parse`,
src/tool_util.h and src/tool_util.cpp).

# What the source leaves open

- `version` and `request_method` are members no constructor
  initialises: `Raw` is what the object's memory happens to hold, and
  `none` a value of `request_method` that is no enumerator.
- `check_post_use_get` runs off its end when it has seen a `?` and no
  `&` behind it; its `none`. The constructor does the same on either
  answer but for a line in the log.
- `config_file_parse::get_pages_path` is the parameter `pagesPath`.
- `new char[n]` gives memory as it is (`Heap`).

`route` is a pointer that `http_parse(char *)` sets, so `HttpParse` has
the string it points at; `Members` is the object with the pointer, for
the constructor that does not set it.

What the parser logs of an object is in Server/Logs.lean, and what the
responses do in the modules beside it: `makeResponse` ends where a
response object takes over.

`split_` is a loop over `find`; `split_eq` says which pieces it makes,
and nothing later opens it.
-/
import TrashyServer.Lib.Pattern
import TrashyServer.Str

namespace TrashyServer.Tool

-- ============================================================== the object

/-- `http_parse::method`. -/
inductive Method
  | get
  | put
  | delete
  | post
  | head
deriving DecidableEq

/-- What the members without an initialiser hold at first. -/
structure Raw where
  version : Int
  requestMethod : Option Method

/-- `http_parse`. -/
structure HttpParse where
  version : Int
  originData : Str
  requestMethod : Option Method
  route : Str
  hostStr : Str
  fileTypeStr : Str
  fileLengthStr : Str
deriving DecidableEq

-- ================================================================= split_

/-- The loop of `split_`, which can go round `n` more times. -/
def splitLoop (source s : Str) :
    Nat → List Str → Nat → Option Nat → Except Fault (List Str)
  | _, result, _, none => .ok result
  | 0, _, _, some _ => .error .diverges
  | n + 1, result, lhs, some rhs => do
      let piece ← substr source lhs (rhs - lhs)
      let lhs := rhs + s.length
      splitLoop source s n (result ++ [piece]) lhs (findFrom s source lhs)

/-- `split_`. -/
def split_ (result : List Str) (source s : Str) : Except Fault (List Str) :=
  splitLoop source s (source.length + 1) result 0 (findFrom s source 0)

theorem splitLoop_eq {source s : Str} (hs : s ≠ []) :
    ∀ {n lhs : Nat} {result : List Str}, lhs ≤ source.length →
      source.length < lhs + n →
      splitLoop source s n result lhs (findFrom s source lhs)
        = .ok (result ++ Search.pieces s (source.drop lhs)) := by
  intro n
  induction n with
  | zero =>
      intro lhs result hle hn
      omega
  | succ n ih =>
      intro lhs result hle hn
      unfold findFrom
      rw [if_pos hle]
      cases hf : Search.find s (source.drop lhs) with
      | none =>
          rw [Option.map_none, splitLoop, Search.pieces_of_none hf,
            List.append_nil]
      | some i =>
          have hroom := Search.find_add_length_le hf
          have hpos := List.length_pos_iff.mpr hs
          rw [List.length_drop] at hroom
          rw [Option.map_some, splitLoop, substr_of_le hle,
            Search.pieces_of_some hs hf, List.drop_drop]
          show splitLoop source s n _ (i + lhs + s.length) _ = _
          rw [ih (by omega) (by omega), List.append_assoc, Nat.add_sub_cancel,
            Nat.add_comm i lhs, Nat.add_assoc]
          rfl

/-- `split_` ends, and appends the pieces before each separator. -/
theorem split_eq {s : Str} (hs : s ≠ []) (result : List Str) (source : Str) :
    split_ result source s = .ok (result ++ Search.pieces s source) :=
  splitLoop_eq hs (Nat.zero_le _) (by omega)

-- ========================================================= setting_attrib

/-- `std::regex_search(source, std::regex("(…)"))` for a text without
special characters. -/
def searchText (source : Str) (text : String) : Bool :=
  Pattern.search (Pattern.lits (bytes text)) source

/-- `std::regex("(HTTP/1.1)")`: the dot is any byte but CR and LF. -/
def http11 : List (Pattern.Atom UInt8) :=
  Pattern.lits (bytes "HTTP/1") ++ .sat (fun b => b ≠ cr && b ≠ lf)
    :: Pattern.lits (bytes "1")

/-- `setting_attrib`. -/
def settingAttrib (p : HttpParse) (source : Str) : Except Fault HttpParse :=
  if searchText source "GET" then
    .ok { p with requestMethod := some .get }
  else if searchText source "POST" then
    .ok { p with requestMethod := some .post }
  else if searchText source "PUT" then
    .ok { p with requestMethod := some .put }
  else if searchText source "DELETE" then
    .ok { p with requestMethod := some .delete }
  else if searchText source "HEAD" then
    .ok { p with requestMethod := some .head }
  else if Pattern.search http11 source then
    .ok { p with version := 1 }
  else if searchText source "Host:" then do
    let index := findFrom (bytes "Host") source 0
    let hostStr ← substrFrom source (offset index 5)
    .ok { p with hostStr := hostStr }
  else if searchText source "Content-length:" then do
    let index := findFrom (bytes "length:") source 0
    let fileLengthStr ← substrFrom source (offset index 8)
    .ok { p with fileLengthStr := fileLengthStr }
  else if searchText source "Content-type:" then do
    let index := findFrom (bytes "type:") source 0
    let fileTypeStr ← substrFrom source (offset index 6)
    .ok { p with fileTypeStr := fileTypeStr }
  else .ok p

-- ======================================================== the constructor

/-- `__find_str_s`. -/
def findStrS (str : Str) (o : UInt8) : Bool := str.any (· = o)

/-- `'?'`. -/
def question : UInt8 := 63

/-- `'&'`. -/
def ampersand : UInt8 := 38

/-- `check_post_use_get`. -/
def checkPostUseGet (route : Str) : Except Fault (Option Bool) :=
  if findStrS route question then do
    let tmpR ← split_ [] route (bytes "?")
    let form ← vectorAt tmpR 1
    if findStrS form ampersand then .ok (some true) else .ok none
  else .ok (some false)

/-- `http_parse(char *)`. -/
def httpParse (raw : Raw) (httpStr : Str) : Except Fault HttpParse := do
  let originData ← cstr httpStr
  let tmpStr ← cstr httpStr
  let splitedStr ← split_ [] tmpStr crlf
  let first ← vectorAt splitedStr 0
  let routeStr ← split_ [] first (bytes " ")
  let route ← vectorAt routeStr 1
  let _ ← checkPostUseGet route
  splitedStr.foldlM settingAttrib
    { version := raw.version, originData := originData,
      requestMethod := raw.requestMethod, route := route,
      hostStr := [], fileTypeStr := [], fileLengthStr := [] }

-- ================================================== the other constructor

/-- The members with `route` as the pointer it is: `none` is null. -/
structure Members where
  version : Int
  originData : Str
  requestMethod : Option Method
  route : Option Str
  hostStr : Str
  fileTypeStr : Str
  fileLengthStr : Str
deriving DecidableEq

/-- The members of an object whose route is set. -/
def HttpParse.members (p : HttpParse) : Members where
  version := p.version
  originData := p.originData
  requestMethod := p.requestMethod
  route := some p.route
  hostStr := p.hostStr
  fileTypeStr := p.fileTypeStr
  fileLengthStr := p.fileLengthStr

/-- What `new char[n]` returns: `n` bytes as they are, and the memory
behind them. -/
structure Heap (n : Nat) where
  block : Str
  size : block.length = n
  behind : Str

/-- `sizeof(str.c_str())`, the size of a pointer. -/
def sizeofPointer : Nat := 8

/-- `memcpy(dest, src, n)`: what is in `dest` afterwards. -/
def memcpy (dest src : Str) (n : Nat) : Except Fault Str :=
  if n ≤ dest.length ∧ n ≤ src.length then .ok (src.take n ++ dest.drop n)
  else .error .vectorRange

/-- `http_parse(std::string &)`. Its last statement makes an object of
its own, in memory that holds `inner`, and drops it. -/
def httpParseString (raw inner : Raw) (str : Str) (heap : Heap str.length) :
    Except Fault Members := do
  let tmpStr ← memcpy heap.block (str ++ [nul]) sizeofPointer
  let _ ← httpParse inner (tmpStr ++ heap.behind)
  .ok { version := raw.version, originData := str,
        requestMethod := raw.requestMethod, route := none,
        hostStr := [], fileTypeStr := [], fileLengthStr := [] }

-- ========================================================== make_response

/-- `set_path`. -/
def setPath (pagesPath : Str) (p : HttpParse) : Except Fault HttpParse := do
  let route ←
    if p.route = bytes "/" then .ok (bytes "index.html")
    else substr p.route 1 p.route.length
  .ok { p with route := pagesPath ++ route }

/-- The method handlers of `make_response`. -/
inductive Handler
  | getMethod
  | postMethod
  | headMethod
  | putMethod
  | defaultMethod
deriving DecidableEq

/-- The `switch` of `make_response`. -/
def dispatch : Option Method → Handler
  | some .get => .getMethod
  | some .post => .postMethod
  | some .head => .headMethod
  | some .put => .putMethod
  | _ => .defaultMethod

/-- `make_response`: the handler, and the object after the handler's
work on it. `post_method` splits the text and drops the pieces. -/
def makeResponse (pagesPath : Str) (p : HttpParse) :
    Except Fault (Handler × HttpParse) := do
  match dispatch p.requestMethod with
  | .getMethod =>
      let p ← setPath pagesPath p
      .ok (.getMethod, p)
  | .postMethod =>
      let _ ← split_ [] p.originData (bytes "\r\n\r\n")
      .ok (.postMethod, p)
  | .headMethod => .ok (.headMethod, p)
  | .putMethod =>
      let p ← setPath pagesPath p
      .ok (.putMethod, p)
  | .defaultMethod => .ok (.defaultMethod, p)

end TrashyServer.Tool
