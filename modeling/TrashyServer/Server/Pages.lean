/-
Which names the server passes to `open` for a GET
(`http_parse::get_method` in src/tool_util.cpp, `GET_Response::try_open`
in src/Server.cpp).

`open` is a parameter: its answer may depend on the name and on every
name opened before. It is handed a C string, so a name is the route's
bytes up to the first NUL. `opened` records the names in order; no
statement of the source reads it.

`response_status` and `fileno` have no initialiser; what the object's
memory holds at first is the argument `old` of `getMethod`. Writing the
response is not part of this module.
-/
import TrashyServer.Tool.HttpParse

namespace TrashyServer.Server

open Tool

/-- The values of `errno` that `try_open` tells apart. -/
inductive Errno
  | eacces
  | enxio
  | eexist
  | eloop
  | efault
  | einval
  | eperm
  | other

/-- `open(…, O_RDONLY)`, after the names in the list: the descriptor,
and `errno` afterwards. -/
abbrev FileSystem : Type := List Str → Str → Int × Errno

/-- `GET_Response`, as far as `try_open` uses it. -/
structure GetResponse where
  route : Str
  responseStatus : Nat
  fileno : Int
  opened : List Str
deriving DecidableEq

/-- `fileno = open(name.c_str(), O_RDONLY)`, and `errno`. -/
def GetResponse.openName (fs : FileSystem) (name : Str) (r : GetResponse) :
    Errno × GetResponse :=
  let answer := fs r.opened (cut name)
  (answer.2, { r with fileno := answer.1, opened := r.opened ++ [cut name] })

/-- `try_open`. -/
def GetResponse.tryOpen (pagesPath : Str) (fs : FileSystem) (r : GetResponse) :
    Int × GetResponse :=
  let (errno, r) := r.openName fs r.route
  if 0 < r.fileno then (0, { r with responseStatus := 200 })
  else match errno with
    | .eacces => (-1, { r with responseStatus := 403 })
    | .enxio =>
        let tmpPath := pagesPath ++ bytes "500.html"
        (-1, ({ r with responseStatus := 500 }.openName fs tmpPath).2)
    | .eexist => (-1, r)
    | .eloop => (-1, { r with responseStatus := 503 })
    | .efault => (-1, { r with responseStatus := 500 })
    | .einval => (-1, { r with responseStatus := 500 })
    | .eperm => (-1, { r with responseStatus := 500 })
    | .other =>
        (-1, ({ r with responseStatus := 404 }.openName fs
          (bytes "./404.html")).2)

/-- `get_method` up to the response: the route becomes a path name, and
that is opened. -/
def getMethod (pagesPath : Str) (fs : FileSystem) (old : Nat × Int)
    (p : HttpParse) : Except Fault GetResponse := do
  let p ← setPath pagesPath p
  let r : GetResponse := ⟨p.route, old.1, old.2, []⟩
  .ok (r.tryOpen pagesPath fs).2

/-- The route's name is opened first; behind it comes at most one of
the two error pages. -/
theorem tryOpen_opened (pagesPath : Str) (fs : FileSystem) (r : GetResponse) :
    ∃ pages, (r.tryOpen pagesPath fs).2.opened
        = r.opened ++ cut r.route :: pages
      ∧ (pages = [] ∨ pages = [cut (pagesPath ++ bytes "500.html")]
        ∨ pages = [cut (bytes "./404.html")]) := by
  have hfirst : (r.openName fs r.route).2.opened
      = r.opened ++ [cut r.route] := rfl
  unfold GetResponse.tryOpen
  generalize r.openName fs r.route = first at hfirst ⊢
  obtain ⟨errno, r'⟩ := first
  dsimp only at hfirst ⊢
  split
  · exact ⟨[], hfirst, .inl rfl⟩
  have hsecond : ∀ name, r'.opened ++ [cut name]
      = r.opened ++ cut r.route :: [cut name] := fun name => by
    rw [hfirst, List.append_assoc]
    rfl
  cases errno with
  | enxio => exact ⟨_, hsecond _, .inr (.inl rfl)⟩
  | other => exact ⟨_, hsecond _, .inr (.inr rfl)⟩
  | eacces | eexist | eloop | efault | einval | eperm =>
      exact ⟨[], hfirst, .inl rfl⟩

end TrashyServer.Server
