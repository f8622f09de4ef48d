/-
From the configuration file and a request to the name that is opened.

Three readers stand between: the lines of the file become pairs, two of
the pairs a directory, and the message a target, which is put behind the
directory. Each keeps the components of what it is given, and none of
the joins makes or loses one: a pages path ends in a slash
(`pagesPathOf_eq`), and of a target only its first byte is dropped,
which is one. So the name has the components of the location, of the
pages' value and of the target, in this order (`page_of_site`).
-/
import TrashyServer.Config.Proofs.Resolve
import TrashyServer.Server.Proofs.Contain
import TrashyServer.Server.Site

namespace TrashyServer.Server

open Config (Slot Values PathKey closed squeeze rootOf parts filled)
open Tool

-- ========================================================== the pages path

theorem mem_squeeze {b : UInt8} (s : Str) (h : b ∈ squeeze s) : b ∈ s := by
  fun_induction squeeze s with
  | case1 => exact h
  | case2 => exact h
  | case3 c c' s hslash ih =>
      rcases List.mem_cons.mp h with heq | hmem
      · rw [heq, ← hslash.1]
        exact List.mem_cons_self ..
      · exact List.mem_cons_of_mem _ (List.mem_cons_of_mem _ (ih hmem))
  | case4 c c' s hslash ih =>
      rcases List.mem_cons.mp h with heq | hmem
      · rw [heq]
        exact List.mem_cons_self ..
      · exact List.mem_cons_of_mem _ (ih hmem)

theorem nul_notMem_closed {p : Str} (h : nul ∉ p) : nul ∉ closed p := by
  unfold closed
  split
  · exact h
  · intro hmem
    rcases List.mem_append.mp hmem with hp | hslash
    · exact h hp
    · exact absurd hslash (by decide)

/-- A configuration file: every line of it is one that can be read, and
they stand for the four settings, each of them once and the location
before the paths. -/
structure Site where
  slots : List Slot
  values : Values
  text : Str
  once : slots.Perm Config.reference
  before : ∀ k before after, slots = before ++ .path k :: after →
    .location ∈ before
  clean : ∀ l ∈ FileStream.lines text, ¬ Config.Faulty l
  pairs : (FileStream.lines text).filterMap Config.pairOf = filled values slots
  location : nul ∉ values.location
  htmlPages : nul ∉ values.path .htmlPages

namespace Site

variable (s : Site)

/-- The pages path. -/
def pagesPath : Str :=
  closed (squeeze (rootOf s.values.location ++ s.values.path .htmlPages))

/-- The components of the location, a dot where there is none. -/
def rootParts : List Str :=
  if s.values.location = [] then [bytes "."] else parts s.values.location

/-- It is what the getter returns. -/
theorem pagesPathOf_eq (port : Int) :
    ∃ n, pagesPathOf n port (.opens s.text .endOfFile)
      = some (.ok s.pagesPath) := by
  have hpath : ∀ k, .path k ∈ s.slots := by
    intro k
    apply s.once.mem_iff.mpr
    cases k with
    | htmlPages => decide
    | staticPath => decide
  have houtcome := (Config.settled_of_perm s.once s.before).outcome_eq hpath
    s.values port [] .htmlPages
  have hget : (Config.ConfigFileParse.new port
        (filled s.values s.slots)).getPagesPath.map Prod.fst
      = .ok s.pagesPath := houtcome
  obtain ⟨n, hn⟩ := Config.loadFileTo_of_clean s.clean
  refine ⟨n, ?_⟩
  unfold pagesPathOf Config.configFileParse
  rw [hn, s.pairs, Option.map_some, Option.map_some]
  apply congrArg some
  show (Config.ConfigFileParse.new port (filled s.values s.slots)).getPagesPath
    >>= (fun c => Except.ok c.1) = _
  rw [← hget]
  cases (Config.ConfigFileParse.new port (filled s.values s.slots)).getPagesPath
    with
  | error fault => rfl
  | ok c => rfl

theorem nul_notMem_pagesPath : nul ∉ s.pagesPath := by
  have hroot : nul ∉ rootOf s.values.location := by
    unfold rootOf
    split
    · decide
    · exact nul_notMem_closed fun h => s.location (mem_squeeze _ h)
  refine nul_notMem_closed fun h => ?_
  rcases List.mem_append.mp (mem_squeeze _ h) with hr | hv
  · exact hroot hr
  · exact s.htmlPages hv

/-- What stands behind the pages path goes on from it. -/
theorem parts_pagesPath (tail : Str) :
    parts (s.pagesPath ++ tail)
      = s.rootParts ++ parts (s.values.path .htmlPages) ++ parts tail := by
  unfold pagesPath
  rw [Config.parts_append_of_slash (Config.getLast?_closed _),
    Config.parts_closed, Config.parts_squeeze,
    Config.parts_append_of_slash (Config.getLast?_rootOf _),
    Config.parts_rootOf]
  rfl

theorem head?_pagesPath (tail : Str) :
    (s.pagesPath ++ tail).head? = some Config.slash
      ↔ s.values.location.head? = some Config.slash := by
  have hroot := Config.rootOf_ne_nil s.values.location
  have hne : rootOf s.values.location ++ s.values.path .htmlPages ≠ [] :=
    fun hnil => hroot (List.append_eq_nil_iff.mp hnil).1
  have hsqueezed := Config.squeeze_ne_nil hne
  unfold pagesPath
  rw [List.head?_append_of_ne_nil _ (Config.closed_ne_nil _),
    Config.head?_closed hsqueezed, Config.head?_squeeze,
    List.head?_append_of_ne_nil _ hroot, Config.head?_rootOf]

end Site

-- ================================================================ the name

/-- The components of a target: the index page for the root. -/
def targetParts (route : Str) : List Str :=
  if route = bytes "/" then [bytes "index.html"] else parts route

/-- Only the slash at the front is dropped. -/
theorem parts_pageName {route : Str} (h : route.head? = some Config.slash) :
    parts (pageName route) = targetParts route := by
  unfold pageName targetParts
  split
  · decide
  · obtain ⟨rest, rfl⟩ := List.head?_eq_some_iff.mp h
    exact (Config.parts_slash rest).symm

theorem nul_notMem_pageName {route : Str} (h : nul ∉ route) :
    nul ∉ pageName route := by
  unfold pageName
  split
  · decide
  · exact fun hmem => h (List.mem_of_mem_drop hmem)

/-- From the configuration file and a request to the name that is
opened. For every configuration, any port, any memory that a message is
read from and any behaviour of `open`: when an object is made of it, with
a target that starts with a slash, the name opened first has the
components of the location, those of the pages' value and those of the
target, in this order and no others, and is absolute with the location;
behind it comes at most one error page. -/
theorem page_of_site (s : Site) (port : Int) {raw : Raw} {mem : Str}
    {p : HttpParse} (hp : httpParse raw mem = .ok p)
    (hroute : p.route.head? = some Config.slash) (fs : FileSystem)
    (old : Nat × Int) :
    ∃ n r name pages,
      getFromSite n port (.opens s.text .endOfFile) raw mem fs old = some (.ok r)
        ∧ r.opened = name :: pages
        ∧ parts name = s.rootParts ++ parts (s.values.path .htmlPages)
          ++ targetParts p.route
        ∧ (name.head? = some Config.slash
          ↔ s.values.location.head? = some Config.slash)
        ∧ (pages = [] ∨ pages = [s.pagesPath ++ bytes "500.html"]
          ∨ pages = [bytes "./404.html"]) := by
  have hends : nul ∈ mem := by
    by_contra hno
    have hover : cstr mem = .error .overread := if_neg hno
    unfold httpParse at hp
    rw [hover, error_bind] at hp
    cases hp
  have hne : p.route ≠ [] := by
    intro hnil
    rw [hnil] at hroute
    cases hroute
  have hname : ∀ page : Str, nul ∉ page →
      cut (s.pagesPath ++ page) = s.pagesPath ++ page := by
    intro page hpage
    apply cut_of_nulFree
    intro hmem
    rcases List.mem_append.mp hmem with hdir | hin
    · exact s.nul_notMem_pagesPath hdir
    · exact hpage hin
  have hfree := nul_notMem_pageName (route_nulFree hends hp)
  have hdot : cut (bytes "./404.html") = bytes "./404.html" := by decide
  obtain ⟨n, hn⟩ := s.pagesPathOf_eq port
  obtain ⟨pages, hopened, hpages⟩ := tryOpen_opened s.pagesPath fs
    ⟨s.pagesPath ++ pageName p.route, old.1, old.2, []⟩
  rw [hname _ (by decide), hdot] at hpages
  refine ⟨n, _, _, pages, ?_, hopened, ?_, ?_, hpages⟩
  · unfold getFromSite
    rw [hp]
    dsimp only
    rw [hn, Option.map_some, ok_bind]
    unfold getMethod
    rw [setPath_eq s.pagesPath hne]
    rfl
  · show parts (cut (s.pagesPath ++ pageName p.route)) = _
    rw [hname _ hfree, s.parts_pagesPath, parts_pageName hroute]
  · show (cut (s.pagesPath ++ pageName p.route)).head? = _ ↔ _
    rw [hname _ hfree]
    exact s.head?_pagesPath _

/-- The text of `site_enable/default.conf`, -/
def defaultText : Str :=
  bytes "# With the `#` behind all comments.\n"
    ++ bytes "# There is unnecessary to restart the server when changed the "
    ++ bytes "file... certainly, I can't stop you.\n\n\n"
    ++ bytes "listen_port:23333\nlocation:/path/to/site/\n"
    ++ bytes "html_pages:site\nstatic_path:\n"

/-- and what it sets. -/
def defaultValues : Values where
  listenPort := bytes "23333"
  location := bytes "/path/to/site/"
  path := fun
    | .htmlPages => bytes "site"
    | .staticPath => []

theorem defaultText_clean :
    ∀ l ∈ FileStream.lines defaultText, ¬ Config.Faulty l := by
  unfold Config.Faulty Config.Overlong Config.Hollow
  decide +kernel

theorem defaultText_pairs :
    (FileStream.lines defaultText).filterMap Config.pairOf
      = filled defaultValues Config.reference := by
  decide +kernel

/-- In the reference order the location is before the paths. -/
theorem reference_before (k : PathKey) (before after : List Slot)
    (h : Config.reference = before ++ .path k :: after) :
    .location ∈ before := by
  unfold Config.reference at h
  rcases before with - | ⟨s, - | ⟨s', before⟩⟩
  · cases h
  · cases h
  · obtain ⟨-, h⟩ := List.cons.inj h
    obtain ⟨rfl, -⟩ := List.cons.inj h
    exact List.mem_cons_of_mem _ (List.mem_cons_self ..)

/-- `site_enable/default.conf`. -/
def defaultConf : Site where
  slots := Config.reference
  values := defaultValues
  text := defaultText
  once := List.Perm.refl _
  before := reference_before
  clean := defaultText_clean
  pairs := defaultText_pairs
  location := by decide
  htmlPages := by decide

/-- With it a GET of `/a/b.html` opens that page under `/path/to/site/site`
first. -/
theorem page_of_default_conf :
    ∃ n r name pages,
      getFromSite n 0 (.opens defaultConf.text .endOfFile) ⟨0, none⟩
          (bytes "GET /a/b.html HTTP/1.1\r\n\r\n" ++ [nul])
          (fun _ _ => (3, .other)) (0, 0) = some (.ok r)
        ∧ r.opened = name :: pages
        ∧ parts name = [bytes "path", bytes "to", bytes "site", bytes "site",
          bytes "a", bytes "b.html"] := by
  have hp : httpParse ⟨0, none⟩ (bytes "GET /a/b.html HTTP/1.1\r\n\r\n" ++ [nul])
      = .ok ⟨0, bytes "GET /a/b.html HTTP/1.1\r\n\r\n", some .get,
          bytes "/a/b.html", [], [], []⟩ := by
    decide
  obtain ⟨n, r, name, pages, hr, hopened, hparts, -, -⟩ :=
    page_of_site defaultConf 0 hp rfl (fun _ _ => (3, .other)) (0, 0)
  refine ⟨n, r, name, pages, hr, hopened, hparts.trans ?_⟩
  decide

end TrashyServer.Server
