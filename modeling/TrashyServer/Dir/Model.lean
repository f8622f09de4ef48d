/-
The directory search (src/templates/search_dir.hxx).

A directory is what `readdir` returns for it, entry by entry; an entry
that is a directory holds its own entries. So a tree stands for what is
found below a path, and whether an `opendir` succeeds is a function of
the name it is given. An empty name it never opens.

`DIR *` values are numbered in the order of the calls of `opendir` that
give one. The ledger has two more columns that no statement of the source
reads: `closed`, the calls of `closedir`, and `asked`, the calls of
`opendir`.

A second `closedir` on one handle is given memory that the first has
freed. The C library finds it freed and ends the process (`aborted`).

`file_found` and `storage_root` are globals: the state is that of the
process, and one search starts from what the last one left. The calls of
`logging` are left out.
-/
import TrashyServer.Config.Model

namespace TrashyServer.Dir

open Config (dot slash)

-- ================================================================ the state

/-- What `readdir` returns: `d_name` up to its NUL, and whether `d_type`
is `DT_DIR`. -/
inductive Entry
  | other (dName : Str)
  | directory (dName : Str) (entries : List Entry)

/-- The globals of `utils`, with a ledger of the handles. -/
structure Utils where
  fileFound : Bool
  storageRoot : List Nat
  opened : Nat
  closed : List Nat
  asked : List Str
deriving DecidableEq

/-- The globals at the start of the process. -/
def Utils.start : Utils := ⟨false, [], 0, [], []⟩

/-- `storage_root.push(dp)`. -/
def Utils.push (s : Utils) (dp : Nat) : Utils :=
  { s with storageRoot := dp :: s.storageRoot }

/-- One more handle. -/
def Utils.issue (s : Utils) : Utils := { s with opened := s.opened + 1 }

/-- The name `opendir` is called for. -/
def Utils.ask (s : Utils) (path : Str) : Utils :=
  { s with asked := s.asked ++ [path] }

/-- `closedir(tmp)`. -/
def Utils.close (s : Utils) (tmp : Nat) : Utils :=
  { s with closed := s.closed ++ [tmp] }

/-- `storage_root.pop()`. -/
def Utils.pop (s : Utils) : Utils :=
  { s with storageRoot := s.storageRoot.tail }

/-- How a call comes back, or that it does not: `aborted`. -/
inductive Exit
  | returned
  | threw
  | aborted
deriving DecidableEq

-- ================================================================== a name

/-- `s.rfind(c)`, for a single character. -/
def rfindChar (s : Str) (c : UInt8) : Option Nat :=
  (s.reverse.findIdx? (· = c)).map (s.length - 1 - ·)

/-- `s.substr(0, s.rfind("."))`. -/
def stem (s : Str) : Str :=
  match rfindChar s dot with
  | some index => s.take index
  | none => s

/-- Whether a file of this name is the one looked for. -/
def found (checkAll : Bool) (target dName : Str) : Bool :=
  if checkAll then dName = target else stem dName = stem target

/-- The two entries passed over. -/
def isDots (dName : Str) : Bool := dName = bytes "." || dName = bytes ".."

/-- `current_dir`. -/
def currentDir (path : Str) : Str :=
  if path.getLast? ≠ some slash then path ++ bytes "/" else path

-- =============================================================== list_them

section

variable (fails : Str → Bool) (checkAll : Bool) (target : Str)

/-- Whether `opendir(path.c_str())` gives a handle. -/
def opens (path : Str) : Bool := path ≠ [] && !fails (cut path)

/-- `opendir`, and what is done with the handle. -/
def opendir (path : Str) (loop : Nat → Utils → Exit × Utils) (s : Utils) :
    Exit × Utils :=
  if opens fails path then loop s.opened (s.ask path).issue
  else (.threw, s.ask path)

mutual

/-- The body of the loop of `list_them`. -/
def readEntry (dp : Nat) (dir : Str) : Entry → Utils → Exit × Utils
  | .other dName, s =>
      if isDots dName then (.returned, s)
      else if found checkAll target dName then
        (.returned, { s with fileFound := true })
      else (.returned, s)
  | .directory dName entries, s =>
      if isDots dName then (.returned, s)
      else
        opendir fails (dir ++ dName)
          (fun dp => readEntries dp (currentDir (dir ++ dName)) entries)
          (s.push dp)

/-- The loop of `list_them`. -/
def readEntries (dp : Nat) (dir : Str) : List Entry → Utils → Exit × Utils
  | [], s => (.returned, s)
  | entry :: entries, s =>
      match readEntry dp dir entry s with
      | (.returned, s) => readEntries dp dir entries s
      | (x, s) => (x, s)

end

/-- `list_them`. -/
def listThem (path : Str) (entries : List Entry) (s : Utils) : Exit × Utils :=
  opendir fails path
    (fun dp => readEntries fails checkAll target dp (currentDir path) entries) s

/-- An entry that is a directory is pushed for and listed. -/
theorem readEntry_directory {dName : Str} (h : isDots dName = false) (dp : Nat)
    (dir : Str) (entries : List Entry) (s : Utils) :
    readEntry fails checkAll target dp dir (.directory dName entries) s
      = listThem fails checkAll target (dir ++ dName) entries (s.push dp) := by
  rw [readEntry, h]
  rfl

end

/-- The loop of `release_dir`, for what the stack holds. -/
def release : List Nat → Utils → Exit × Utils
  | [], s => (.returned, s)
  | tmp :: rest, s =>
      if tmp ∈ s.closed then (.aborted, s.close tmp)
      else release rest (s.close tmp).pop

/-- `release_dir`. -/
def releaseDir (s : Utils) : Exit × Utils := release s.storageRoot s

-- ============================================================== the searches

/-- A call of `search_file` (`checkAll`) or
`search_file_ignore_extension`: the name of the directory, what is below
it, which names `opendir` fails on, and the name looked for. -/
structure Call where
  checkAll : Bool
  dir : Str
  entries : List Entry
  fails : Str → Bool
  target : Str

/-- `search_file` and `search_file_ignore_extension`. The result of a
search that returns is `file_found`. -/
def Call.run (c : Call) (s : Utils) : Exit × Utils :=
  match listThem c.fails c.checkAll c.target c.dir c.entries
      { s with fileFound := false } with
  | (.returned, s) => releaseDir s
  | (x, s) => (x, s)

/-- The globals after calls in turn, whether they return or throw. -/
def runs (calls : List Call) (s : Utils) : Utils :=
  calls.foldl (fun s c => (c.run s).2) s

end TrashyServer.Dir
