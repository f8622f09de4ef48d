/-
The configuration file (`config_file_parse`, src/script_parse.h and
src/script_parse.cpp).

`load_file_to` is a loop controlled by `eof()`; `loadFileTo n` is what
it has come to after at most `n` rounds. A getter goes over all pairs
again and changes the object.

# What the source leaves open

- `file_buff__` is an array of `MAXLINE` bytes that `strcpy` fills; a
  text that does not fit with its NUL is `Fault.vectorRange`, and so is
  reading the last character of an empty string, by `rbegin()` or by an
  index.
- `config_file_listen_port` has no initialiser: `port` is what the
  object's memory holds. A number too large for `atoi` is cut as glibc
  does it.

`check_sumV5` is written by the constructor and read by nothing; the
loop that reads the file for it is in Digest/Model.lean. The strings
`page_file_type` and the calls of `logging` are left out.
-/
import TrashyServer.Lib.Loop
import TrashyServer.Stream
import TrashyServer.Server.Model

namespace TrashyServer.Config

open Server (maxline)
open Tool (searchText)

-- ======================================================== the C functions

/-- `' '`. -/
def space : UInt8 := 32

/-- `'#'`. -/
def hash : UInt8 := 35

/-- `':'`. -/
def colon : UInt8 := 58

/-- `'/'`. -/
def slash : UInt8 := 47

/-- `'.'`. -/
def dot : UInt8 := 46

/-- `strchr(s, c)`: what the pointer points at, `none` being the null
pointer. -/
def strchr (s : Str) (c : UInt8) : Option Str :=
  if c ∈ cut s then some ((cut s).dropWhile (· ≠ c)) else none

/-- The loop of `str_offset_L`. -/
def offsetLoop : Str → UInt8 → Nat
  | [], _ => 0
  | b :: lfhd, c =>
      if b = nul then 0 else if b ≠ c then offsetLoop lfhd c + 1 else 0

/-- `str_offset_L`, for a `lfhd` that is not null. -/
def strOffsetL (lfhd : Str) (rihd : Option Str) : Nat :=
  match rihd with
  | none => 0
  | some text => offsetLoop lfhd (text.headD nul)

/-- `memset` and `strcpy(array, s)` for an array of `size` bytes: the
text in the array. -/
def strcpy (size : Nat) (s : Str) : Except Fault Str :=
  if strlen s < size then .ok (cut s) else .error .vectorRange

/-- `*s.rbegin()`. -/
def lastChar (s : Str) : Except Fault UInt8 :=
  match s.getLast? with
  | some c => .ok c
  | none => .error .vectorRange

/-- `isspace`. -/
def isSpace (b : UInt8) : Bool := b = 32 || (9 ≤ b && b ≤ 13)

/-- The number at the front of a text. -/
def digits (n : Nat) : Str → Nat
  | [] => n
  | b :: s => if 48 ≤ b ∧ b ≤ 57 then digits (10 * n + (b.toNat - 48)) s else n

/-- `atoi`: `strtol`, which stops at the ends of a `long`, as an
`int`. -/
def atoi (s : Str) : Int :=
  let text := (cut s).dropWhile isSpace
  let long : Int := match text with
    | 45 :: t => max (-(digits 0 t : Int)) (-(2 ^ 63 : Nat))
    | 43 :: t => min (digits 0 t : Int) ((2 ^ 63 : Nat) - 1)
    | t => min (digits 0 t : Int) ((2 ^ 63 : Nat) - 1)
  toInt (long % (2 ^ 64 : Nat)).toNat

-- =========================================================== load_file_to

/-- `remove_space`. -/
def removeSpace (str : Str) : Str := str.filter (· ≠ space)

/-- The comment cut off a line; `none` is the `continue` of a line that
is all comment. -/
def cutComment (tmpFileBuff : Str) : Except Fault (Option Str) :=
  match strchr tmpFileBuff hash with
  | none => .ok (some tmpFileBuff)
  | some commentCh => do
      let fileBuff ← strcpy maxline tmpFileBuff
      let headToCommentLen := strOffsetL fileBuff (some commentCh)
      let realStr ← substr tmpFileBuff 0 headToCommentLen
      .ok (if realStr.isEmpty then none else some realStr)

/-- The body of the loop behind `getline`: what it leaves in
`tmp_file_buff`, and the pair it appends. -/
def loadLine (tmpFileBuff : Str) :
    Except Fault (Str × Option (Str × Str)) := do
  match ← cutComment tmpFileBuff with
  | none => .ok (tmpFileBuff, none)
  | some tmpFileBuff =>
      if tmpFileBuff.isEmpty then .ok (tmpFileBuff, none)
      else
        let tmpFileBuff := removeSpace tmpFileBuff
        let fileBuff ← strcpy maxline tmpFileBuff
        let leftLen := strOffsetL fileBuff (strchr fileBuff colon)
        let headPort ← substr tmpFileBuff 0 leftLen
        let tailPort ← substr tmpFileBuff (leftLen + 1) tmpFileBuff.length
        .ok (tmpFileBuff, some (headPort, tailPort))

/-- The variables of `load_file_to`. -/
structure Load where
  fileLoad : FileStream
  tmpFileBuff : Str
  tmpPathKV : List (Str × Str)
deriving DecidableEq

/-- The condition of the loop. -/
def Load.more (s : Load) : Bool := !s.fileLoad.eof

/-- The body of the loop. -/
def Load.body (s : Load) : Except Fault Load := do
  let (fileLoad, tmpFileBuff) := s.fileLoad.getline s.tmpFileBuff
  let (tmpFileBuff, kv) ← loadLine tmpFileBuff
  .ok ⟨fileLoad, tmpFileBuff, s.tmpPathKV ++ kv.toList⟩

/-- The variables at the start of the loop. -/
def Load.start (file : FileBehaviour) : Load := ⟨.new file, [], []⟩

/-- `load_file_to`, at most `n` times round its loop. -/
def loadFileTo (n : Nat) (file : FileBehaviour) :
    Option (Except Fault (List (Str × Str))) :=
  (Loop.rounds Load.more Load.body n (Load.start file)).map
    (·.map Load.tmpPathKV)

-- ============================================================== check_dir

/-- The first loop of `check_dir`, with `n` rounds to go: of two slashes
the first is taken out, and the index moves on to what follows the
second. `str[str.length()]` is the NUL. -/
def checkDirLoop : Nat → Nat → Str → Except Fault Str
  | 0, _, str => .ok str
  | n + 1, i, str =>
      if i < str.length then
        if str.getD i nul = slash ∧ str.getD (i + 1) nul = slash then do
          let tmpStrL ← substr str 0 i
          let tmpStrR ← substr str (i + 1) str.length
          checkDirLoop n (i + 1) (tmpStrL ++ tmpStrR)
        else checkDirLoop n (i + 1) str
      else .ok str

/-- `while(str[i] != '/') i--`. -/
def backToSlash (str : Str) : Nat → Nat
  | 0 => 0
  | i + 1 => if str.getD (i + 1) nul ≠ slash then backToSlash str i else i + 1

/-- `check_dir`. An empty string is indexed at `npos`. -/
def checkDir (str : Str) : Except Fault Str := do
  let str ← checkDirLoop str.length 0 str
  let last ← lastChar str
  if last = slash then substr str 0 (backToSlash str (str.length - 1) + 1)
  else .ok str

-- ============================================================= the object

/-- `config_file_parse`. -/
structure ConfigFileParse where
  staticPath : Str
  pagesPath : Str
  configFileListenPort : Int
  pathKVData : List (Str × Str)
  rootDir : Str
deriving DecidableEq

/-- The object once its file is loaded. -/
def ConfigFileParse.new (port : Int) (kvs : List (Str × Str)) :
    ConfigFileParse :=
  ⟨[], [], port, kvs, []⟩

/-- `config_file_parse()`, at most `n` times round the loop. -/
def configFileParse (n : Nat) (port : Int) (file : FileBehaviour) :
    Option (Except Fault ConfigFileParse) :=
  (loadFileTo n file).map (·.map (ConfigFileParse.new port))

/-- One round of the loop of `parse_setting`. -/
def parseSettingStep (c : ConfigFileParse) (index : Str × Str) :
    Except Fault ConfigFileParse :=
  if searchText index.1 "listen_port" then
    .ok { c with configFileListenPort := atoi index.2 }
  else if searchText index.1 "location" then
    if index.2.length = 0 then .ok { c with rootDir := bytes "./" }
    else do
      let second ← checkDir index.2
      let last ← lastChar second
      let second := if last ≠ slash then second ++ bytes "/" else second
      .ok { c with rootDir := second }
  else if searchText index.1 "html_pages" then do
    let tmp ← checkDir (c.rootDir ++ index.2)
    .ok { c with pagesPath := tmp }
  else if searchText index.1 "static_path" then do
    let tmp ← checkDir (c.rootDir ++ index.2)
    .ok { c with staticPath := tmp }
  else .ok c

/-- `parse_setting`. -/
def ConfigFileParse.parseSetting (c : ConfigFileParse) :
    Except Fault ConfigFileParse :=
  c.pathKVData.foldlM parseSettingStep c

/-- `get_static_path`. -/
def ConfigFileParse.getStaticPath (c : ConfigFileParse) :
    Except Fault (Str × ConfigFileParse) := do
  let c ← c.parseSetting
  let last ← lastChar c.staticPath
  let c := if last ≠ slash then { c with staticPath := c.staticPath ++ bytes "/" }
    else c
  .ok (c.staticPath, c)

/-- `get_pages_path`. -/
def ConfigFileParse.getPagesPath (c : ConfigFileParse) :
    Except Fault (Str × ConfigFileParse) := do
  let c ← c.parseSetting
  let last ← lastChar c.pagesPath
  let c := if last ≠ slash then { c with pagesPath := c.pagesPath ++ bytes "/" }
    else c
  .ok (c.pagesPath, c)

/-- `get_listen_port`. -/
def ConfigFileParse.getListenPort (c : ConfigFileParse) :
    Except Fault (Int × ConfigFileParse) := do
  let c ← c.parseSetting
  .ok (c.configFileListenPort, c)

/-- The getters. -/
inductive Getter
  | getStaticPath
  | getPagesPath
  | getListenPort
deriving DecidableEq

/-- The object after a call of a getter. -/
def ConfigFileParse.call (c : ConfigFileParse) :
    Getter → Except Fault ConfigFileParse
  | .getStaticPath => c.getStaticPath.map Prod.snd
  | .getPagesPath => c.getPagesPath.map Prod.snd
  | .getListenPort => c.getListenPort.map Prod.snd

/-- The object after calls of the getters in turn. -/
def ConfigFileParse.calls (c : ConfigFileParse) (gs : List Getter) :
    Except Fault ConfigFileParse :=
  gs.foldlM ConfigFileParse.call c

end TrashyServer.Config
