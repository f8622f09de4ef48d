/-
A GET under the configuration file of its time (`http_parse::set_path`
in src/tool_util.cpp, `config_file_parse` in src/script_parse.cpp).

`set_path` makes a `config_file_parse` of its own for every request, so
the file is read again each time, and `try_open` makes another one.
`pagesPathOf` is what comes of one file: what the object's memory holds
for the port is `port`, and the loop over the file goes round at most `n`
times.

# Making an object

The constructor opens the file twice: `calcul_file_md5` reads it for the
checksum, `load_file_to` for the settings. Either loop may go on for
ever, and either may find another file than the one before (`ConfigRead`).
Nothing reads the checksum, so the memory its MD5 object is made in is
left at zeros.
-/
import TrashyServer.Config.Model
import TrashyServer.Digest.Transform
import TrashyServer.Server.Pages

namespace TrashyServer.Server

open Config
open Tool

/-- `config_file_parse file_path; file_path.get_pages_path()`. -/
def pagesPathOf (n : Nat) (port : Int) (file : FileBehaviour) :
    Option (Except Fault Str) :=
  (configFileParse n port file).map fun c => do
    let c ← c
    let (pagesPath, _) ← c.getPagesPath
    .ok pagesPath

/-- What one `config_file_parse` meets: its file as the checksum and as
the settings are read from it, a bound on the rounds of either loop, and
what its memory holds for the port. -/
structure ConfigRead where
  digest : FileBehaviour
  load : FileBehaviour
  rounds : Nat
  port : Int

namespace ConfigRead

variable (r : ConfigRead)

/-- `MD5 _md5`, in memory that holds zeros. -/
def md5 : Digest.Md5 where
  buff := ⟨List.replicate 64 0, List.length_replicate⟩
  digestBytes := []
  magicNum := .start
  count0 := 0
  count1 := 0
  finish := false
  fed := []

/-- `calcul_file_md5`, as far as it comes back. -/
def calculFileMd5 : Option (Except Fault Digest.Md5) :=
  md5.updateFile Digest.transformers r.rounds (.new r.digest)

/-- `config_file_parse()`. -/
def object : Option (Except Fault ConfigFileParse) :=
  Loop.andThen r.calculFileMd5 fun _ => configFileParse r.rounds r.port r.load

/-- The constructor, and `get_pages_path`. -/
def getPagesPath : Option (Except Fault Str) :=
  Loop.andThen r.calculFileMd5 fun _ => pagesPathOf r.rounds r.port r.load

/-- The pages path, where there is one. -/
def pagesPath : Str :=
  match r.getPagesPath with
  | some (.ok path) => path
  | _ => []

end ConfigRead

/-- A request in memory, its object, and for a GET what it opens. -/
def getFromSite (n : Nat) (port : Int) (file : FileBehaviour) (raw : Raw)
    (mem : Str) (fs : FileSystem) (old : Nat × Int) :
    Option (Except Fault GetResponse) :=
  match httpParse raw mem with
  | .error fault => some (.error fault)
  | .ok p => (pagesPathOf n port file).map fun pagesPath => do
      let pagesPath ← pagesPath
      getMethod pagesPath fs old p

end TrashyServer.Server
