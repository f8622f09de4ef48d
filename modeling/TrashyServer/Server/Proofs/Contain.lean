/-
Whether the name opened for a GET lies inside the pages path.

Nothing between the request line and `open` looks at the components of
a route: `set_path` drops its first byte and puts the pages path in
front. So the name's normal form is the join of the two
(`Paths.norm_append`), and a route of dot-dots climbs out.
`contained_iff` is the exact answer; a route whose every prefix goes
down at least as often as up is the usual way to meet it
(`Paths.Returns.of_ups_eq_zero`).
-/
import TrashyServer.Lib.Paths
import TrashyServer.Server.Pages
import TrashyServer.Tool.Proofs.Construct

namespace TrashyServer.Server

open Tool

-- ==================================================== paths in a byte string

/-- `'/'`. -/
def slash : UInt8 := 47

/-- What a component between slashes does; an empty one and a dot do
nothing. -/
def component (s : Str) : Option (Paths.Step Str) :=
  if s = [] ∨ s = bytes "." then none
  else if s = bytes ".." then some .up
  else some (.name s)

/-- The steps of a path. -/
def steps (s : Str) : List (Paths.Step Str) :=
  (s.splitOn slash).filterMap component

/-- Whether a path starts at the root. -/
def Absolute (s : Str) : Prop := s.head? = some slash

instance (s : Str) : Decidable (Absolute s) :=
  inferInstanceAs (Decidable (s.head? = some slash))

/-- The normalised component list of a path. -/
def components (s : Str) : List (Paths.Step Str) :=
  if Absolute s then (Paths.normRoot (steps s)).map .name
  else (Paths.norm (steps s)).comps

/-- `name` lies inside `dir`: both start at the root or neither does,
and the component list of `dir` is a prefix of that of `name`. -/
def Inside (dir name : Str) : Prop :=
  (Absolute name ↔ Absolute dir) ∧ components dir <+: components name

instance (dir name : Str) : Decidable (Inside dir name) :=
  inferInstanceAs (Decidable (_ ∧ _))

/-- A pages path: it ends in a slash and holds no NUL. -/
structure PagesPath where
  dir : Str
  nulFree : nul ∉ dir

/-- That of the site under `/site/`. -/
def PagesPath.site : PagesPath := ⟨bytes "/site", by decide⟩

/-- The pages path as configured. -/
def PagesPath.text (P : PagesPath) : Str := P.dir ++ [slash]

theorem steps_append_slash (a b : Str) :
    steps (a ++ slash :: b) = steps a ++ steps b := by
  unfold steps
  rw [List.splitOn_append_cons_self, List.filterMap_append]

/-- Behind a slash a path goes on. -/
theorem PagesPath.steps_append (P : PagesPath) (tail : Str) :
    steps (P.text ++ tail) = steps P.text ++ steps tail := by
  have hdir : steps P.text = steps P.dir := by
    unfold text
    rw [steps_append_slash]
    exact List.append_nil _
  have hsplit : P.text ++ tail = P.dir ++ slash :: tail := by
    unfold text
    rw [List.append_assoc]
    rfl
  rw [hdir, hsplit, steps_append_slash]

/-- What is put behind the pages path does not move its start. -/
theorem PagesPath.absolute_append (P : PagesPath) (tail : Str) :
    Absolute (P.text ++ tail) ↔ Absolute P.text := by
  unfold Absolute text
  cases P.dir <;> simp

-- ====================================================== the exact condition

/-- The route behind its first byte comes back to the pages path: it
does not climb above it, or goes down again by the names it climbed
over. A route that climbs over more levels than the pages path has
names comes back only where the prefix test has nothing to compare, or
at the root by all the names. -/
def ComesBack (dir tail : Str) : Prop :=
  if (Paths.norm (steps tail)).ups ≤ (Paths.norm (steps dir)).names.length then
    Paths.Returns (Paths.norm (steps dir)).names (Paths.norm (steps tail))
  else if Absolute dir then
    (Paths.norm (steps dir)).names <+: (Paths.norm (steps tail)).names
  else (Paths.norm (steps dir)).names = []

/-- Containment of the pages path followed by anything. -/
theorem inside_append_iff (P : PagesPath) (tail : Str) :
    Inside P.text (P.text ++ tail) ↔ ComesBack P.text tail := by
  have habs := P.absolute_append tail
  unfold Inside components ComesBack
  by_cases hroot : Absolute P.text
  · rw [if_pos hroot, if_pos (habs.mpr hroot), if_pos hroot,
      and_iff_right habs, Paths.normRoot_eq, Paths.normRoot_eq, P.steps_append,
      Paths.norm_append, ← Paths.names_prefix_join_iff]
    exact List.prefix_map_iff_of_injective fun _ _ h => Paths.Step.name.inj h
  · rw [if_neg hroot, if_neg (mt habs.mp hroot), if_neg hroot,
      and_iff_right habs, P.steps_append, Paths.norm_append,
      Paths.comps_prefix_join_iff]

/-- A path that does not climb comes back. -/
theorem comesBack_of_ups_eq_zero (dir : Str) {tail : Str}
    (h : (Paths.norm (steps tail)).ups = 0) : ComesBack dir tail := by
  unfold ComesBack
  rw [if_pos (by omega)]
  exact Paths.Returns.of_ups_eq_zero _ h

theorem inside_of_ups_eq_zero (P : PagesPath) {tail : Str}
    (h : (Paths.norm (steps tail)).ups = 0) : Inside P.text (P.text ++ tail) :=
  (inside_append_iff P tail).mpr (comesBack_of_ups_eq_zero P.text h)

-- ============================================================ what is opened

/-- A route as the constructor leaves it: no NUL in it. -/
structure Route where
  text : Str
  nulFree : nul ∉ text

/-- One that goes up and down again. -/
def Route.winding : Route := ⟨bytes "/a/../b", by decide⟩

example : ComesBack PagesPath.site.text (Route.winding.text.drop 1) :=
  comesBack_of_ups_eq_zero _ (by decide)

/-- The constructor makes no other. -/
theorem route_nulFree {raw : Raw} {mem : Str} (h : nul ∈ mem) {p : HttpParse}
    (hp : httpParse raw mem = .ok p) : nul ∉ p.route := by
  obtain ⟨_, htarget, _⟩ := httpParse_ok h hp
  unfold target at htarget
  obtain ⟨line, hline, hword⟩ := Option.bind_eq_some_iff.mp htarget
  intro hnul
  have hinline := Search.mem_of_mem_pieces (List.mem_of_getElem? hword) nul hnul
  have hmem := List.mem_of_mem_head? hline
  exact nul_notMem_cut mem (Search.mem_of_mem_pieces hmem nul hinline)

/-- Where a GET's name lies. For every pages path, every route, every
behaviour of `open` and every contents of the members without an
initialiser: an empty route opens nothing. Any other opens one name
first, and that lies inside the pages path exactly when the route
behind its first byte comes back to it; what is opened after it is the
page `500.html`, which lies inside, or `./404.html`. -/
theorem contained_iff (P : PagesPath) (route : Route) (fs : FileSystem)
    (old : Nat × Int) (p : HttpParse) :
    if route.text = [] then
      getMethod P.text fs old { p with route := route.text }
        = .error .substrRange
    else ∃ r name pages,
      getMethod P.text fs old { p with route := route.text } = .ok r
        ∧ r.opened = name :: pages
        ∧ (Inside P.text name ↔ ComesBack P.text (route.text.drop 1))
        ∧ (pages = [] ∨ pages = [P.text ++ bytes "500.html"]
          ∨ pages = [bytes "./404.html"])
        ∧ Inside P.text (P.text ++ bytes "500.html") := by
  have hname : ∀ page : Str, nul ∉ page → cut (P.text ++ page) = P.text ++ page :=
    fun page hpage => by
      have hdir : nul ∉ P.text := by
        have := P.nulFree
        simp only [PagesPath.text, List.mem_append, this, false_or]
        decide
      exact cut_of_nulFree fun h => (List.mem_append.mp h).elim hdir hpage
  split
  · next hempty =>
    unfold getMethod
    rw [setPath_empty P.text (p := { p with route := route.text }) hempty,
      error_bind]
  · next hroute =>
    have hpath := setPath_eq P.text (p := { p with route := route.text }) hroute
    obtain ⟨pages, hopened, hpages⟩ := tryOpen_opened P.text fs
      ⟨P.text ++ pageName route.text, old.1, old.2, []⟩
    unfold getMethod
    rw [hpath, ok_bind]
    refine ⟨_, _, pages, rfl, hopened, ?_, ?_, inside_of_ups_eq_zero P rfl⟩
    · by_cases hroot : route.text = bytes "/"
      · -- the index page, and nothing behind the slash
        have hindex : pageName route.text = bytes "index.html" := if_pos hroot
        rw [hindex, hname _ (by decide), hroot]
        exact iff_of_true (inside_of_ups_eq_zero P rfl)
          (comesBack_of_ups_eq_zero _ rfl)
      · have hdrop : pageName route.text = route.text.drop 1 := if_neg hroot
        rw [hdrop, hname _ fun h => route.nulFree (List.mem_of_mem_drop h)]
        exact inside_append_iff P _
    · rwa [hname _ (by decide)] at hpages

/-- A GET of `/../secret` under `/site/` opens a name outside. -/
theorem climbs_out :
    (httpParse ⟨0, none⟩ (bytes "GET /../secret HTTP/1.1\r\n\r\n" ++ [nul])
        >>= getMethod (bytes "/site/") (fun _ _ => (3, .other)) (0, 0)).map
      GetResponse.opened = .ok [bytes "/site/../secret"]
      ∧ ¬ Inside (bytes "/site/") (bytes "/site/../secret") := by
  decide

end TrashyServer.Server
