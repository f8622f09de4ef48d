/-
Which runs of the server show nothing of its memory.

Much of what a request meets has no initialiser: the array it is read
into, the members of its object, the block its header is printed into,
the port in the object of a configuration. And some of what is read is
gone by then, behind pointers that dangle. `Call.inMemory` is a call as
it would go with all of that as it is in another one.

A request is `Sealed` when it brings its own NUL and names its method,
and that is a method whose handler looks at nothing older: not DELETE,
whose page is read into an array as it is, and not HEAD. Of the rest a
sealed call looks at two things only (`Call.Agrees`). A GET prints the
texts behind two dangling pointers in its header, and a line of the
request that is logged hands an object over where a text is meant. Where
two memories agree in these, the call goes the same in both
(`run_inMemory`), and so does a run of such requests (`sealed_runs`): but
for these texts nobody is sent what is not in the files or in his own
request.

HEAD is left out for a reason: `head_shows_iff` says how much of the
heap its answer shows.
-/
import TrashyServer.Config.Proofs.Port
import TrashyServer.Server.Proofs.ReadBack

namespace TrashyServer.Server

open Loop (andThen andThen_congr)
open Runs
open Tool

-- ================================================================ a request

namespace Call

variable (c : Call)

/-- The call in the memory that `m` finds, its `read` interrupted as often
as that of `m`. -/
def inMemory (m : Call) : Call :=
  { c with
    raw := m.raw
    buff := m.buff
    behind := m.behind
    interrupts := m.interrupts
    config := { c.config with port := m.config.port }
    configAgain := { c.configAgain with port := m.configAgain.port }
    oldStatus := m.oldStatus
    oldFileno := m.oldFileno
    heap := m.heap
    statusText := m.statusText
    date := m.date
    stray := m.stray
    pageBuff := m.pageBuff
    pageBehind := m.pageBehind
    object := m.object }

/-- The handlers that look at nothing the call finds in memory. For
`EEXIST` a GET leaves its status as it was. -/
def Clean (handler : Handler) : Prop :=
  handler = .postMethod ∨ handler = .putMethod
    ∨ handler = .getMethod
      ∧ (0 < c.firstOpen.1 ∨ c.firstOpen.2 ≠ .eexist)

/-- What is read ends in a NUL of its own and names its method, and that
method's handler is clean. -/
def Sealed : Prop :=
  ∀ d, c.read = some d → nul ∈ d
    ∧ (Constructs (cut d) → lastNamed (lines (cut d)) ≠ none
      ∧ c.Clean (dispatch (lastNamed (lines (cut d)))))

/-- What the call, having read `d`, looks at is the same in the memory
that `m` finds: the header a GET prints, and the objects that are handed
to the log. -/
structure Agrees (m : Call) (d : Str) : Prop where
  header : ∀ t, Tool.target (cut d) = some t →
    dispatch (lastNamed (lines (cut d))) = .getMethod →
    m.headerBuff (c.opened t).responseStatus
      = c.headerBuff (c.opened t).responseStatus
  objects : ∀ i line, (lines (cut d))[i]? = some line →
    attribFormat line ≠ none → m.object i = c.object i

end Call

-- ========================================================== a configuration

/-- The pages path does not depend on the port that was there before, -/
theorem getPagesPath_port (r : ConfigRead) (port : Int) :
    ({ r with port := port } : ConfigRead).getPagesPath = r.getPagesPath := by
  have hget : ∀ kvs, (Config.ConfigFileParse.new port kvs).getPagesPath.map Prod.fst
      = (Config.ConfigFileParse.new r.port kvs).getPagesPath.map Prod.fst :=
    fun kvs => Config.getPath_port port r.port kvs .htmlPages
  have hfirst : ∀ x : Except Fault (Str × Config.ConfigFileParse),
      (x >>= fun y => Except.ok y.1) = x.map Prod.fst := by
    intro x
    cases x <;> rfl
  have hpath : pagesPathOf r.rounds port r.load
      = pagesPathOf r.rounds r.port r.load := by
    unfold pagesPathOf Config.configFileParse
    match Config.loadFileTo r.rounds r.load with
    | none => rfl
    | some (.error e) => rfl
    | some (.ok kvs) =>
        exact congrArg some
          ((hfirst _).trans ((hget kvs).trans (hfirst _).symm))
  exact congrArg (fun x => andThen r.calculFileMd5 fun _ => x) hpath

/-- and neither does whether there is an object. -/
theorem object_port (r : ConfigRead) (port : Int) :
    (configured ({ r with port := port } : ConfigRead).object).map
        (·.map fun _ => ())
      = (configured r.object).map (·.map fun _ => ()) := by
  have hobject : ∀ port : Int,
      ({ r with port := port } : ConfigRead).object
        = andThen r.calculFileMd5 fun _ =>
          Config.configFileParse r.rounds port r.load := fun port => rfl
  rw [hobject, show r.object = _ from hobject r.port]
  unfold Config.configFileParse
  match r.calculFileMd5, Config.loadFileTo r.rounds r.load with
  | none, _ => rfl
  | some (.error e), _ => rfl
  | some (.ok s), none => rfl
  | some (.ok s), some (.error e) => rfl
  | some (.ok s), some (.ok kvs) => rfl

section Configured

variable (c m : Call)

theorem laterPath_inMemory : (c.inMemory m).laterPath = c.laterPath := by
  unfold Call.laterPath ConfigRead.pagesPath
  rw [← getPagesPath_port c.configAgain m.configAgain.port]
  rfl

theorem tryOpenConfig_inMemory :
    (c.inMemory m).tryOpenConfig = c.tryOpenConfig := by
  unfold Call.tryOpenConfig
  rw [← getPagesPath_port c.configAgain m.configAgain.port,
    ← object_port c.configAgain m.configAgain.port]
  rfl

theorem setPathConfig_inMemory (handler : Handler) :
    (c.inMemory m).setPathConfig handler = c.setPathConfig handler := by
  have hpath : configured (c.inMemory m).config.getPagesPath
      = configured c.config.getPagesPath :=
    congrArg configured (getPagesPath_port c.config m.config.port)
  cases handler with
  | getMethod | putMethod => exact hpath
  | postMethod | headMethod | defaultMethod => rfl

end Configured

-- ============================================================= the handlers

/-- What `try_open` leaves does not depend on what it found. -/
theorem tryOpen_old {pagesPath : Str} {fs : FileSystem} {r r' : GetResponse}
    (hroute : r.route = r'.route) (hopened : r.opened = r'.opened)
    (hknown : 0 < (fs r.opened (cut r.route)).1
      ∨ (fs r.opened (cut r.route)).2 ≠ .eexist) :
    (r.tryOpen pagesPath fs).2 = (r'.tryOpen pagesPath fs).2 := by
  unfold GetResponse.tryOpen GetResponse.openName
  rw [hroute, hopened] at hknown ⊢
  dsimp only
  split
  · rfl
  · next hno =>
    have hne := hknown.resolve_left hno
    cases herrno : (fs r'.opened (cut r'.route)).2 with
    | eexist => exact absurd herrno hne
    | eacces | enxio | eloop | efault | einval | eperm | other => rfl

/-- What is done with the text in a block is the same, whatever the block
held before. -/
theorem sprintf_cut {α : Type} (heap heap' : Heap headerSize) (text : Str)
    (f : Str → Except Stop α) :
    (called (sprintf heap text) >>= fun block => f (cut block))
      = called (sprintf heap' text) >>= fun block => f (cut block) := by
  by_cases hfit : text.length < headerSize
  · unfold sprintf
    rw [if_pos hfit, if_pos hfit]
    show f (cut (text ++ nul :: _)) = f (cut (text ++ nul :: _))
    rw [cut_append_nul, cut_append_nul]
  · unfold sprintf
    rw [if_neg hfit, if_neg hfit]

/-- A GET does the same in any memory that has its header. -/
theorem written_inMemory {c m : Call} {route : Str}
    (hknown : 0 < c.firstOpen.1 ∨ c.firstOpen.2 ≠ .eexist)
    (hheader : m.headerBuff
        ((c.getResponse route).tryOpen c.laterPath c.fs).2.responseStatus
      = c.headerBuff
        ((c.getResponse route).tryOpen c.laterPath c.fs).2.responseStatus) :
    ((c.inMemory m).getResponse route).written c.file c.time c.laterPath c.fs
        c.pages (fun status => sprintf m.heap (m.headerBuff status)) c.accepts
      = (c.getResponse route).written c.file c.time c.laterPath c.fs c.pages
        (fun status => sprintf c.heap (c.headerBuff status)) c.accepts := by
  have hopened : (((c.inMemory m).getResponse route).tryOpen c.laterPath c.fs).2
      = ((c.getResponse route).tryOpen c.laterPath c.fs).2 :=
    tryOpen_old rfl rfl hknown
  have hlogs : ((c.inMemory m).getResponse route).tryOpenLogs c.laterPath c.fs
      = (c.getResponse route).tryOpenLogs c.laterPath c.fs := rfl
  have hroute : ((c.inMemory m).getResponse route).route
      = (c.getResponse route).route := rfl
  unfold GetResponse.written
  dsimp only
  rw [hopened, hlogs, hroute, hheader]
  have hrest : ∀ {α β : Type} {x : Except Stop α} {f g : α → Except Stop β},
      (∀ a, f a = g a) → (x >>= f) = x >>= g := fun h =>
    congrArg _ (funext h)
  refine hrest fun _ => hrest fun _ => hrest fun _ => hrest fun _ => ?_
  exact sprintf_cut m.heap c.heap _ fun tmp => do
    let page ← called (readPage _ _)
    messages c.time (pageLogs _ _ _)
    .ok ((tmp ++ page).take c.accepts)

/-- A PUT ends in the name that it cannot make, if not before: what its
object's memory held for the status is not come to. -/
theorem respond_put_eq (c : Call) (store : Store) (utils : Dir.Utils)
    (p : HttpParse) :
    c.respond store utils p .putMethod
      = andThen (some (calls (PutResponse.new 0 p.route p.originData).setPageData))
        fun _ => andThen (configured c.configAgain.getPagesPath) fun _ =>
          some (.error (.fault (.library .substrRange))) := by
  have hput : ∀ searchRoot, ((PutResponse.new c.oldStatus p.route
      p.originData).put searchRoot c.stray c.statusText c.date c.accepts store
      utils).mapError ExitCause.fault
        = .error (.fault (.library .substrRange)) := by
    intro searchRoot
    rw [put_no_answer]
    rfl
  have hrest : ∀ x : Option (Except ExitCause Str),
      (andThen x fun searchRoot => some do
        let out ← ((PutResponse.new c.oldStatus p.route p.originData).put
          searchRoot c.stray c.statusText c.date c.accepts store utils).mapError
          ExitCause.fault
        .ok (⟨out.sent, none, out.store, out.utils⟩ : Answer))
      = andThen x fun _ => some (.error (.fault (.library .substrRange))) := by
    intro x
    refine andThen_congr fun searchRoot _ => ?_
    rw [hput]
    rfl
  unfold Call.respond
  dsimp only
  rw [hrest]
  unfold PutResponse.setPageData PutResponse.new
  dsimp only
  match substr p.originData (offset (rfind (bytes "\r\n\r\n") p.originData) 0)
    p.originData.length with
  | .error e => rfl
  | .ok pageData => rfl

/-- A clean handler does the same in any memory that agrees. -/
theorem respond_inMemory {c m : Call} (store : Store) (utils : Dir.Utils)
    {p : HttpParse} {handler : Handler} (h : c.Clean handler)
    (hheader : handler = .getMethod → m.headerBuff
        ((c.getResponse p.route).tryOpen c.laterPath c.fs).2.responseStatus
      = c.headerBuff
        ((c.getResponse p.route).tryOpen c.laterPath c.fs).2.responseStatus) :
    (c.inMemory m).respond store utils p handler
      = c.respond store utils p handler := by
  rcases h with rfl | rfl | ⟨rfl, hknown⟩
  · rfl
  · have hpath : configured (c.inMemory m).configAgain.getPagesPath
        = configured c.configAgain.getPagesPath :=
      congrArg configured (getPagesPath_port c.configAgain m.configAgain.port)
    rw [respond_put_eq, respond_put_eq, hpath]
  · have hopened : (((c.inMemory m).getResponse p.route).tryOpen c.laterPath
        c.fs).2 = ((c.getResponse p.route).tryOpen c.laterPath c.fs).2 :=
      tryOpen_old rfl rfl hknown
    unfold Call.respond
    dsimp only
    rw [tryOpenConfig_inMemory, laterPath_inMemory]
    show andThen c.tryOpenConfig (fun _ => some
      ((((c.inMemory m).getResponse p.route).written c.file c.time c.laterPath
        c.fs c.pages (fun status => sprintf m.heap (m.headerBuff status))
        c.accepts).mapError Stop.cause >>= fun sent => _)) = _
    rw [written_inMemory hknown (hheader rfl)]
    have hfs : (c.inMemory m).fs = c.fs := rfl
    rw [hfs, hopened]
    rfl

-- ================================================================ the version

/-- `make_response` hands the version on, -/
theorem makeResponse_version (pagesPath : Str) (p : HttpParse) (v : Int) :
    makeResponse pagesPath { p with version := v }
      = (makeResponse pagesPath p).map fun r =>
        (r.1, { r.2 with version := v }) := by
  have hpath : setPath pagesPath { p with version := v }
      = (setPath pagesPath p).map fun q => { q with version := v } := by
    unfold setPath
    dsimp only
    split
    · rfl
    · cases substr p.route 1 p.route.length with
      | error e => rfl
      | ok route => rfl
  unfold makeResponse
  dsimp only
  cases dispatch p.requestMethod with
  | getMethod | putMethod =>
      dsimp only
      rw [hpath]
      cases setPath pagesPath p with
      | error e => rfl
      | ok q => rfl
  | postMethod =>
      dsimp only
      cases split_ [] p.originData (bytes "\r\n\r\n") with
      | error e => rfl
      | ok pieces => rfl
  | headMethod | defaultMethod => rfl

/-- and no handler reads it. -/
theorem respond_version (c : Call) (store : Store) (utils : Dir.Utils)
    (p : HttpParse) (v : Int) (handler : Handler) :
    c.respond store utils { p with version := v } handler
      = c.respond store utils p handler := by
  cases handler with
  | getMethod | postMethod | headMethod | putMethod | defaultMethod => rfl

/-- Where the image of a result is a failure, it is one. -/
theorem mapError_of_map {α β : Type} {x : Except Fault α} {f : α → β}
    {e : Fault} (h : x.map f = .error e) : x = .error e := by
  cases x with
  | error e' =>
      cases h
      rfl
  | ok a => cases h

theorem ok_of_map {α β : Type} {x : Except Fault α} {f : α → β} {b : β}
    (h : x.map f = .ok b) : ∃ a, x = .ok a ∧ f a = b := by
  cases x with
  | error e => cases h
  | ok a => exact ⟨a, rfl, Except.ok.inj h⟩

-- =================================================================== a call

/-- The log of the parser, where the objects it looks at are the same. -/
theorem parserLogs_congr (file : Log.CStr) {object object' : Nat → Log.CStr}
    {p : HttpParse} {text : Str} (h : p.originData = text)
    (hsame : ∀ i line, (lines text)[i]? = some line →
      attribFormat line ≠ none → object i = object' i) :
    parserLogs file object p = parserLogs file object' p := by
  have hlines : split_ [] p.originData crlf = .ok (lines text) := by
    rw [h]
    exact split_eq (List.cons_ne_nil _ _) [] _
  unfold parserLogs
  rw [hlines]
  dsimp only
  refine congrArg _ (List.flatMap_congr ?_)
  rintro ⟨line, i⟩ hmem
  unfold attribLogs
  cases hformat : attribFormat line with
  | none => rfl
  | some found =>
      rw [hsame i line (List.mem_zipIdx_iff_getElem?.mp hmem)
        (hformat ▸ Option.some_ne_none _)]

/-- A request that brings its NUL is not read past it. -/
theorem cut_memory (c : Call) {d : Str} (h : nul ∈ d) :
    nul ∈ c.memory d ∧ cut (c.memory d) = cut d := by
  refine ⟨List.mem_append_left _ (List.mem_append_left _ h), ?_⟩
  unfold Call.memory
  rw [List.append_assoc, cut_append_of_mem h]

/-- It is parsed in two memories to the same failure, or to objects that
have all but their version in common. -/
theorem parse_inMemory (c m : Call) {d : Str} (h : nul ∈ d)
    (hnamed : Constructs (cut d) → lastNamed (lines (cut d)) ≠ none) :
    (∃ fault, httpParse c.raw (c.memory d) = .error fault
        ∧ httpParse m.raw ((c.inMemory m).memory d) = .error fault)
      ∨ ∃ p v, httpParse c.raw (c.memory d) = .ok p
        ∧ httpParse m.raw ((c.inMemory m).memory d)
          = .ok { p with version := v } := by
  obtain ⟨hends, hcut⟩ := cut_memory c h
  obtain ⟨hends', hcut'⟩ := cut_memory (c.inMemory m) h
  have hagree := httpParse_agree m.raw c.raw hends' hends
    (hcut'.trans hcut.symm) (by rw [hcut']; exact hnamed)
  cases hp : httpParse c.raw (c.memory d) with
  | error fault =>
      rw [hp] at hagree
      exact .inl ⟨fault, rfl, mapError_of_map hagree⟩
  | ok p =>
      rw [hp] at hagree
      obtain ⟨q, hq, hsame⟩ := ok_of_map hagree
      have hversion : q = { p with version := q.version } :=
        congrArg (fun x : HttpParse => { x with version := q.version }) hsame
      exact .inr ⟨p, q.version, rfl, hversion ▸ hq⟩

/-- What comes behind the parse and its messages. -/
theorem handle_inMemory {c m : Call} (store : Store) (utils : Dir.Utils)
    {p : HttpParse} (v : Int) (hclean : c.Clean (dispatch p.requestMethod))
    (hheader : dispatch p.requestMethod = .getMethod →
      m.headerBuff (c.opened p.route).responseStatus
        = c.headerBuff (c.opened p.route).responseStatus) :
    (andThen ((c.inMemory m).setPathConfig (dispatch p.requestMethod))
        fun pagesPath =>
      andThen (some (calls (makeResponse pagesPath { p with version := v })))
        fun (handler, q) => (c.inMemory m).respond store utils q handler)
      = andThen (c.setPathConfig (dispatch p.requestMethod)) fun pagesPath =>
        andThen (some (calls (makeResponse pagesPath p))) fun (handler, q) =>
        c.respond store utils q handler := by
  rw [setPathConfig_inMemory]
  refine andThen_congr fun path hpath => ?_
  rw [makeResponse_version]
  cases hmade : makeResponse path p with
  | error fault => rfl
  | ok made =>
      obtain ⟨handler, q⟩ := made
      obtain ⟨rfl, hroute⟩ := makeResponse_ok hmade
      show (c.inMemory m).respond store utils { q with version := v }
          (dispatch p.requestMethod)
        = c.respond store utils q (dispatch p.requestMethod)
      rw [respond_version]
      refine respond_inMemory store utils hclean fun hget => ?_
      have hm : NeedsPath p.requestMethod := .inl (dispatch_eq_get hget)
      rw [hroute hm, (setPathConfig_ok hpath hm).2]
      exact hheader hget

/-- A sealed call goes the same in any memory that agrees. -/
theorem run_inMemory {c m : Call} (h : c.Sealed)
    (hagrees : ∀ d, c.read = some d → c.Agrees m d) (store : Store)
    (utils : Dir.Utils) :
    (c.inMemory m).run store utils = c.run store utils := by
  cases hread : c.read with
  | none => rw [run_none hread, run_none (c := c.inMemory m) hread]
  | some d =>
      obtain ⟨hnul, hclean⟩ := h d hread
      have hraw : (c.inMemory m).raw = m.raw := rfl
      rw [run_eq hread, run_eq (c := c.inMemory m) hread, hraw]
      rcases parse_inMemory c m hnul fun hmade => (hclean hmade).1 with
        ⟨fault, hp, hq⟩ | ⟨p, v, hp, hq⟩
      · rw [hp, hq]
        rfl
      · obtain ⟨hends, hcut⟩ := cut_memory c hnul
        obtain ⟨horigin, htarget, hmethod⟩ := httpParse_ok hends hp
        have hconstructs := (httpParse_ok_iff c.raw hends).mp ⟨p, hp⟩
        rw [hcut] at horigin htarget hmethod
        obtain ⟨hnamed, hhandlers⟩ := hclean (by rw [← hcut]; exact hconstructs)
        obtain ⟨last, hlast⟩ := Option.ne_none_iff_exists'.mp hnamed
        have hsame : p.requestMethod = lastNamed (lines (cut d)) := by
          rw [hmethod, hlast]
          rfl
        rw [← hsame] at hhandlers
        obtain ⟨hheader, hobjects⟩ := hagrees d hread
        have hlog : parserLogs c.toolFile.text m.object { p with version := v }
            = parserLogs c.toolFile.text c.object p :=
          parserLogs_congr c.toolFile.text horigin hobjects
        rw [hp, hq]
        show andThen (some (logged c.time (parserLogs c.toolFile.text m.object
          { p with version := v }))) _ = andThen (some (logged c.time
          (parserLogs c.toolFile.text c.object p))) _
        rw [hlog]
        refine andThen_congr fun _ _ => handle_inMemory store utils v hhandlers ?_
        intro hget
        exact hheader p.route htarget (hsame ▸ hget)

-- ================================================================== a run

/-- An event whose request, if it is one, is sealed. -/
def Event.Sealed : Event → Prop
  | .request c => c.Sealed
  | _ => True

/-- The event in the memory that `m` finds. -/
def Event.inMemory (m : Call) : Event → Event
  | .request c => .request (c.inMemory m)
  | e => e

/-- What its request looks at is the same there. -/
def Event.Agrees (m : Call) : Event → Prop
  | .request c => ∀ d, c.read = some d → c.Agrees m d
  | _ => True

theorem step_inMemory {e : Event} {m : Call} (h : e.Sealed) (hm : e.Agrees m)
    (p : Proc) : RunState.step p (e.inMemory m) = RunState.step p e := by
  cases e with
  | wait fds => rfl
  | accept fd prepared => rfl
  | interrupt => rfl
  | request c =>
      cases p with
      | ended cause => rfl
      | running s =>
          have hclosed : ({ c.inMemory m with read := none } : Call).run s.store
              s.utils = ({ c with read := none } : Call).run s.store s.utils := by
            rw [run_none rfl, run_none rfl]
          show RunState.step (.running s) (.request (c.inMemory m)) = _
          rw [RunState.step_request, RunState.step_request]
          cases s.batch with
          | nil => rfl
          | cons n rest =>
              dsimp only
              by_cases hopen : n ∈ s.table
              · rw [if_pos hopen, if_pos hopen, run_inMemory h hm]
                rfl
              · rw [if_neg hopen, if_neg hopen, hclosed]
                rfl

/-- An event whose request is sealed, and a memory that it can as well be
in. -/
structure Movable where
  event : Event
  memory : Call
  sealed : event.Sealed
  agrees : event.Agrees memory

/-- The event there. -/
def Movable.moved (e : Movable) : Event := e.event.inMemory e.memory

/-- A GET of `/` is sealed, and where its array, its object and its heap
held other things it could print the same header. -/
def helloMoved : Movable where
  event := .request hello
  memory := { hello with
    raw := ⟨1, some .delete⟩
    buff := bytes "passwd"
    heap := ⟨List.replicate headerSize 97, List.length_replicate, []⟩
    oldStatus := 404 }
  sealed := by
    intro d hd
    cases hd
    exact ⟨by decide, fun _ => ⟨by decide +kernel, .inr (.inr
      ⟨by decide +kernel, .inl (by decide)⟩)⟩⟩
  agrees := fun _ _ => ⟨fun _ _ _ => rfl, fun _ _ _ _ => rfl⟩

/-- Runs of sealed requests are the same in any memories that agree with
theirs in what a GET prints in its header and in what is handed to the
log: whatever else the arrays, the objects and the heap blocks of each
call hold before it, the process ends up with the same descriptors, the
same files, and the same answers to the same connections. -/
theorem sealed_runs (st : Start) (es : List Movable) :
    run RunState.step st.proc (es.map Movable.moved)
      = run RunState.step st.proc (es.map Movable.event) := by
  generalize st.proc = p
  induction es generalizing p with
  | nil => rfl
  | cons e es ih =>
      rw [List.map_cons, List.map_cons, run_cons, run_cons]
      unfold Movable.moved at ih ⊢
      rw [step_inMemory e.sealed e.agrees]
      exact congrArg _ (funext fun p' => ih p')

-- ================================================================== a HEAD

/-- A status and a date whose header fits its block. -/
structure Printed where
  statusText : Nat → Str
  date : Str
  fits : (pageHeader (statusText 200) date).length < headerSize

/-- The status and the date that a header is meant to have. -/
def Printed.sunday : Printed where
  statusText := statusCodeNum
  date := bytes "Sun, 06 Nov 1994 08:49:37 GMT"
  fits := by decide +kernel

/-- The header. -/
def Printed.text (t : Printed) : Str := pageHeader (t.statusText 200) t.date

/-- A heap that goes on for all that a HEAD copies. -/
structure HeadHeap where
  heap : Heap headerSize
  room : maxline ≤ headerSize + heap.behind.length

/-- A heap that holds one byte all over. -/
def HeadHeap.filled (b : UInt8) : HeadHeap where
  heap := ⟨List.replicate headerSize b, List.length_replicate,
    List.replicate maxline b⟩
  room := by
    rw [List.length_replicate]
    exact Nat.le_add_left maxline headerSize

/-- What the heap holds behind the header and its NUL, as far as it is
copied and the socket takes it. -/
def HeadHeap.shown (h : HeadHeap) (t : Printed) (accepts : Nat) : Str :=
  ((h.heap.block ++ h.heap.behind).drop (t.text.length + 1)).take
    (min accepts maxline - (t.text.length + 1))

/-- The answer to a HEAD: the header, its NUL, and what follows. -/
theorem headResponse_eq (t : Printed) (h : HeadHeap) (accepts : Nat) :
    headResponse t.statusText t.date h.heap accepts
      = .ok ((t.text ++ [nul]).take accepts ++ h.shown t accepts) := by
  have hfits : t.text.length + 1 ≤ headerSize := t.fits
  have hblock : sprintf h.heap (pageHeader (t.statusText 200) t.date)
      = .ok (t.text ++ nul :: h.heap.block.drop (t.text.length + 1)) :=
    if_pos t.fits
  have hroom : maxline ≤ (List.replicate maxline nul).length ∧ maxline
      ≤ (t.text ++ nul :: h.heap.block.drop (t.text.length + 1)
        ++ h.heap.behind).length := by
    rw [List.length_replicate, List.length_append, length_sprintf hblock]
    exact ⟨Nat.le_refl _, h.room⟩
  have hover : (List.replicate maxline nul).drop maxline = [] :=
    List.drop_eq_nil_of_le List.length_replicate.le
  have hheap : t.text ++ nul :: h.heap.block.drop (t.text.length + 1)
        ++ h.heap.behind
      = (t.text ++ [nul])
        ++ (h.heap.block ++ h.heap.behind).drop (t.text.length + 1) := by
    rw [List.drop_append_of_le_length (by rw [h.heap.size]; exact hfits)]
    simp
  have hlen : (t.text ++ [nul]).length = t.text.length + 1 :=
    List.length_append
  have hfront : (t.text ++ [nul]).take (min accepts maxline)
      = (t.text ++ [nul]).take accepts := by
    have hmax : headerSize ≤ maxline := by decide
    rw [List.take_eq_take_iff, hlen]
    omega
  unfold headResponse memcpy HeadHeap.shown
  rw [hblock, ok_bind, if_pos hroom, ok_bind, hover, List.append_nil,
    List.take_take, hheap, List.take_append, hfront, hlen]

/-- How much of the heap a HEAD shows: the answers of two heaps are the
same if and only if these hold the same behind the header, up to
`MAXLINE` bytes from its start or as far as the socket takes it. -/
theorem head_shows_iff (t : Printed) (h h' : HeadHeap) (accepts : Nat) :
    headResponse t.statusText t.date h.heap accepts
        = headResponse t.statusText t.date h'.heap accepts
      ↔ h.shown t accepts = h'.shown t accepts := by
  rw [headResponse_eq, headResponse_eq, Except.ok.injEq]
  exact List.append_right_inj _

theorem shown_filled (b : UInt8) (t : Printed) {accepts : Nat}
    (h : t.text.length + 1 < min accepts maxline) :
    b ∈ (HeadHeap.filled b).shown t accepts
      ∧ ∀ a ∈ (HeadHeap.filled b).shown t accepts, a = b := by
  have hfits : t.text.length + 1 ≤ headerSize := t.fits
  have hmax : min accepts maxline ≤ maxline := Nat.min_le_right ..
  unfold HeadHeap.filled HeadHeap.shown
  dsimp only
  rw [List.replicate_append_replicate, List.drop_replicate, List.take_replicate]
  refine ⟨List.mem_replicate.mpr ⟨?_, rfl⟩, fun a ha =>
    List.eq_of_mem_replicate ha⟩
  omega

/-- Whoever takes more than the header is shown it. -/
theorem head_shows_iff_filled :
    headResponse Printed.sunday.statusText Printed.sunday.date
        (HeadHeap.filled 97).heap 1024
      ≠ headResponse Printed.sunday.statusText Printed.sunday.date
        (HeadHeap.filled 98).heap 1024 := by
  intro heq
  have hlong : Printed.sunday.text.length + 1 < min 1024 maxline := by
    decide +kernel
  have hsame := (head_shows_iff .sunday (.filled 97) (.filled 98) 1024).mp heq
  have hmem := (shown_filled 97 .sunday hlong).1
  rw [hsame] at hmem
  exact absurd ((shown_filled 98 .sunday hlong).2 97 hmem) (by decide)

end TrashyServer.Server
