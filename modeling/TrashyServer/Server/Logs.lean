/-
What handling a request logs (the calls of `logging` in src/Server.cpp
and in the request parser of src/tool_util.cpp).

A call is its level, its format and what is handed over behind it. The
calls of a part of the source are a list, in the order they are made, and
follow that part's branches; the responses and the loop run them where
they stand (`printed`).

`__FILE__` is what the compiler made of the file's name, and `__LINE__`
the line the call stands in. `time` is what `ctime` returned, without
its newline. `zero` is whether `write` returned 0; a call of it that
fails returns -1, and is logged like one that does not.

The request parser hands over a `std::string` for a `%s`, twice. `va_arg`
takes that for a `char *`: what is found there is a parameter, `object`.

`get_time_stamp_net_std1` has a message of fixed text for a time that
cannot be printed, and the reader of the configuration one for a file
that cannot be opened; they are left out.
-/
import TrashyServer.Log.Model
import TrashyServer.Server.Deliver

namespace TrashyServer.Server

open Log (Level CStr Arg Misuse)
open Tool

-- ================================================================ a call

/-- A call of `logging`. -/
structure LogCall where
  level : Level
  fmt : CStr
  args : List Arg

/-- The line it prints. -/
def LogCall.run (time : CStr) (l : LogCall) : Except Misuse Str :=
  Log.logging time l.level l.fmt l.args

/-- One call after the other. -/
def printed (time : CStr) : List LogCall → Except Misuse Unit
  | [] => .ok ()
  | l :: ls => do
      let _ ← l.run time
      printed time ls

/-- A message without arguments. -/
def LogCall.plain (level : Level) (fmt : CStr) : LogCall := ⟨level, fmt, []⟩

/-- `s.c_str()`, for a `%s`. -/
def cStr (s : Str) : Arg := .string ⟨cut s, nul_notMem_cut s⟩

/-- What `ctime` returns of a year of four digits, without its
newline. -/
structure Stamp where
  text : CStr
  length : text.val.length = 24

/-- What the compiler makes of the file's name. -/
structure FileName where
  text : CStr
  plain : Log.percent ∉ text.val
  long : 2 ≤ text.val.length

theorem nul_notMem_cpp : nul ∉ bytes "Server.cpp" ∧ nul ∉ bytes "tool_util.cpp"
    ∧ nul ∉ bytes "Thu Jan  1 00:00:00 1970" := by
  decide

theorem percent_notMem_cpp : Log.percent ∉ bytes "Server.cpp"
    ∧ Log.percent ∉ bytes "tool_util.cpp" := by
  decide

theorem length_cpp : 2 ≤ (bytes "Server.cpp").length
    ∧ 2 ≤ (bytes "tool_util.cpp").length
    ∧ (bytes "Thu Jan  1 00:00:00 1970").length = 24 := by
  decide

/-- The names of the two files, compiled where they stand, -/
def serverCpp : FileName :=
  ⟨⟨bytes "Server.cpp", nul_notMem_cpp.1⟩, percent_notMem_cpp.1, length_cpp.1⟩

def toolUtilCpp : FileName :=
  ⟨⟨bytes "tool_util.cpp", nul_notMem_cpp.2.1⟩, percent_notMem_cpp.2,
    length_cpp.2.1⟩

/-- and a time. -/
def epoch : Stamp :=
  ⟨⟨bytes "Thu Jan  1 00:00:00 1970", nul_notMem_cpp.2.2⟩, length_cpp.2.2⟩

-- ============================================================= the parser

/-- What `check_post_use_get` and then the constructor log of a route. The
one runs off its end where it finds no `&`: the other's message, for which
that is an answer or not, is left out then. -/
def queryLogs (route : Str) : List LogCall :=
  let many := LogCall.plain .warn
    ⟨bytes "Route (URI) has too many `?`", by decide⟩
  match checkPostUseGet route with
  | .error _ => []
  | .ok (some false) => []
  | .ok none => [many]
  | .ok (some true) => [many, LogCall.plain .warn
      ⟨bytes "Could NOT able to handle get-post method..", by decide⟩]

/-- The two branches of `setting_attrib` that log: the line the call
stands in, and its format. -/
def attribFormat (source : Str) : Option (Nat × CStr) :=
  if searchText source "GET" then none
  else if searchText source "POST" then none
  else if searchText source "PUT" then none
  else if searchText source "DELETE" then none
  else if searchText source "HEAD" then none
  else if Pattern.search http11 source then none
  else if searchText source "Host:" then none
  else if searchText source "Content-length:" then
    some (117, ⟨bytes "%s %d %s", by decide⟩)
  else if searchText source "Content-type:" then
    some (121, ⟨bytes "%s, %d, %s", by decide⟩)
  else none

/-- What `setting_attrib` logs of a line whose value it has stored,
`object` being what is found where the string is taken for a text. -/
def attribLogs (file object : CStr) (source : Str) : List LogCall :=
  (attribFormat source).toList.map fun (line, fmt) =>
    ⟨.debug, fmt, [.string file, .int line, .string object]⟩

/-- What the constructor logs of an object it has come to the end of. -/
def parserLogs (file : CStr) (object : Nat → CStr) (p : HttpParse) :
    List LogCall :=
  let splitedStr := match split_ [] p.originData crlf with
    | .ok splitedStr => splitedStr
    | .error _ => []
  queryLogs p.route
    ++ splitedStr.zipIdx.flatMap fun (source, i) =>
      attribLogs file (object i) source

-- ============================================================== try_open

/-- What `try_open` logs. -/
def GetResponse.tryOpenLogs (pagesPath : Str) (fs : FileSystem)
    (r : GetResponse) : List LogCall :=
  let (errno, r) := r.openName fs r.route
  if 0 < r.fileno then []
  else match errno with
    | .eacces => [LogCall.plain .info
        ⟨bytes "The requested access to the file is not allowed.", by decide⟩]
    | .enxio =>
        LogCall.plain .error ⟨bytes
            "The file may is a device file. Or O_NONBLOCK | O_WRONLY is set.",
            by decide⟩
          :: if (r.openName fs (pagesPath ++ bytes "500.html")).2.fileno < 0
            then [LogCall.plain .warn
              ⟨bytes "Can Not find `500.html`, checkout the file.",
                by decide⟩]
            else []
    | .eexist => []
    | .eloop => [LogCall.plain .warn
        ⟨bytes "Too Many symbolic links were encountered..", by decide⟩]
    | .efault => [LogCall.plain .warn
        ⟨bytes "`pathname poins outside your accessible address space.`",
          by decide⟩]
    | .einval => [LogCall.plain .error
        ⟨bytes "flags is NOT Suitable...", by decide⟩]
    | .eperm => [LogCall.plain .warn
        ⟨bytes "The Operation was prevented by a file seal..", by decide⟩]
    | .other =>
        if (r.openName fs (bytes "./404.html")).2.fileno < 0
        then [LogCall.plain .warn
          ⟨bytes "Can NOT find `404.html`, checkout the file.", by decide⟩]
        else []

-- ============================================================== response

/-- What `get_text_file_T` logs of a path whose suffix it looks for. -/
def suffixLogs (str : Str) : List LogCall :=
  match Config.strcpy maxline str with
  | .error _ => []
  | .ok parseBuff =>
      let tailLen := Config.strOffsetL parseBuff (strrchr parseBuff Config.dot)
      if 7 < str.length - tailLen
      then [LogCall.plain .warn
        ⟨bytes "file's suffix may too long..", by decide⟩]
      else []

/-- `logging(WARN, "%s, %d, The file too big", __FILE__, __LINE__)`. -/
def tooBig (file : CStr) (line : Nat) : LogCall :=
  ⟨.warn, ⟨bytes "%s, %d, The file too big", by decide⟩,
    [.string file, .int line]⟩

/-- What the `switch` logs: one of its loops that fills the array, or the
default branch. -/
def pageLogs (file : CStr) (responseStatus : Nat) (results : List Int) :
    List LogCall :=
  let filled := (readSums responseStatus results).filter ((maxline : Int) ≤ ·)
  match responseStatus with
  | 200 => filled.map fun _ => tooBig file 295
  | 404 => filled.map fun _ => tooBig file 304
  | 500 => filled.map fun _ => tooBig file 313
  | _ => [LogCall.plain .warn ⟨bytes "Not send any pages.", by decide⟩]

theorem nul_notMem_notSent :
    nul ∉ bytes "From %s can NOT send any pages." := by
  decide

/-- `logging(DEBUG, "file type is %s", file_T__.c_str())`. -/
def typeLog (fileT : Str) : LogCall :=
  ⟨.debug, ⟨bytes "file type is %s", by decide⟩, [cStr fileT]⟩

/-- What is logged of the page when it has been written. -/
def sentLog (zero : Bool) (route : Str) : LogCall :=
  if zero
  then ⟨.error, ⟨bytes "From %s can NOT send any pages.", nul_notMem_notSent⟩,
    [cStr route]⟩
  else ⟨.info, ⟨bytes "From %s pages send fin.", by decide⟩, [cStr route]⟩

/-- What `GET_Response::response` logs when `write` returns 0. -/
def GetResponse.logNotSent (time : CStr) (r : GetResponse) :
    Except Misuse Str :=
  (sentLog true r.route).run time

/-- What `GET_Response::response` logs, up to an exception of
`get_text_file_T`. -/
def GetResponse.logs (file : CStr) (zero : Bool) (pagesPath : Str)
    (fs : FileSystem) (d : Descriptors) (r : GetResponse) : List LogCall :=
  let opened := (r.tryOpen pagesPath fs).2
  r.tryOpenLogs pagesPath fs
    ++ suffixLogs r.route
    ++ match getTextFileT r.route with
      | .error _ => []
      | .ok fileT =>
          typeLog fileT
            :: pageLogs file opened.responseStatus
                (d.reads opened.fileno).results.values
            ++ [sentLog zero r.route]

/-- What `DEFAULT_Response::response` logs. -/
def defaultLogs (file : CStr) (zero : Bool) (index : FileBehaviour) :
    List LogCall :=
  let route := cStr (bytes "index.html")
  let unopened := match index with
    | .openFails =>
        [⟨.warn, ⟨bytes "%s, %d, %s, %s", by decide⟩,
          [.string file, .int 179, cStr (bytes "can not open file"), route]⟩]
    | .opens _ _ => []
  unopened
    ++ [if zero
      then ⟨.warn,
        ⟨bytes "IN %s, %d. from %s can NOT send any pages.", by decide⟩,
        [.string file, .int 193, route]⟩
      else ⟨.info, ⟨bytes "%s send fin.", by decide⟩, [route]⟩]

/-- What `HEAD_Response::response` logs. -/
def headLogs (zero : Bool) : List LogCall :=
  [if zero
    then LogCall.plain .error
      ⟨bytes "HEAD method was NOT send correctly..", by decide⟩
    else LogCall.plain .info ⟨bytes "HEAD method send fin..", by decide⟩]

end TrashyServer.Server
