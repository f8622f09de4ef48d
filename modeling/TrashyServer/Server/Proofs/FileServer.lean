/-
What the old server is for: it serves the files of a disk.

A file server (`Disk.page`) knows a disk, a directory and a target. It
answers with the file of that name, as far as one array holds it, and
where there is none with a status that says why, and one of two error
pages.

A `Visit` is a GET of a client under a configuration: what the kernel
answers to the two calls of `open` and to those of `read` is what the
disk has (`Disk.Opens`), the texts behind the pointers are still there,
and the socket takes the answer as a whole. What is in the uninitialised
memory, how the reads cut the file and which descriptors it goes by is
left open, and so is what else is in the request.

Then the server refines the file server. In every run, whatever came
before, when some more events are handled whose requests are visits, what
the clients read out of the answers is what the file server gives them,
request by request (`pages_served`). Between the two stand the reader of
the configuration, the request parser, the dispatch, `try_open`, the read
loops, the header and the client's reader, each by its own lemma.
-/
import TrashyServer.Server.Proofs.ReadBack
import TrashyServer.Server.Proofs.Site

namespace TrashyServer.Server

open Runs
open Tool

-- ============================================================= a file server

/-- Why a name cannot be opened for reading, as far as it makes a
difference. -/
inductive Failure
  | forbidden
  | device
  | loop
  | refused
  | missing
deriving DecidableEq

/-- The files that can be read, by their names. -/
abbrev Disk : Type := Str → Except Failure Str

namespace Disk

variable (disk : Disk)

/-- An error page, if it is there. -/
def errorPage (name : Str) : Str :=
  match disk name with
  | .ok content => content.take maxline
  | .error _ => []

/-- What a file server with the directory `root` has for a target. -/
def page (root target : Str) : StatusCode × Str :=
  match disk (root ++ pageName target) with
  | .ok content => (.successOk, content.take maxline)
  | .error .forbidden => (.clientErrorForbidden, [])
  | .error .device =>
      (.serverErrorInternalServerError, disk.errorPage (root ++ bytes "500.html"))
  | .error .loop => (.serverErrorServiceUnavailable, [])
  | .error .refused => (.serverErrorInternalServerError, [])
  | .error .missing =>
      (.clientErrorNotFound, disk.errorPage (bytes "./404.html"))

end Disk

-- ================================================================ the kernel

/-- The reason behind `errno`. An `open` that creates nothing never fails
with `EEXIST`. -/
def failureOf : Errno → Option Failure
  | .eacces => some .forbidden
  | .enxio => some .device
  | .eexist => none
  | .eloop => some .loop
  | .efault => some .refused
  | .einval => some .refused
  | .eperm => some .refused
  | .other => some .missing

/-- `open` answers what the disk has: a descriptor that `read` finds the
file behind, or -1 and the reason. -/
def Disk.Opens (disk : Disk) (pages : Descriptors) (name : Str)
    (answer : Int × Errno) : Prop :=
  match disk name with
  | .ok content =>
      0 < answer.1 ∧ (pages.reads answer.1).pieces.flatten = content
  | .error failure => answer.1 = -1 ∧ failureOf answer.2 = some failure

/-- A GET of a client under a configuration. -/
structure Visit (disk : Disk) (site : Site) where
  call : Call
  /-- What the client has sent, and the target in it. -/
  text : Str
  target : Str
  read : call.read = some text
  method : dispatch (call.method text) = .getMethod
  names : Tool.target (cut (call.memory text)) = some target
  /-- The configuration file is the site's, both times it is read. -/
  path : ∀ path ∈ [call.pagesPath, call.laterPath], ∃ n port,
    pagesPathOf n port (.opens site.text .endOfFile) = some (.ok path)
  /-- The texts of the table are still where the pointers went, and the
  date is one line. -/
  texts : call.statusText = statusCodeNum
  date : cr ∉ call.date ∧ nul ∉ call.date
  /-- What `open` answers, the first time and the second. -/
  first : disk.Opens call.pages (cut (call.pagesPath ++ pageName target))
    call.firstOpen
  second : ∀ name,
    (call.opened target).opened
        = [cut (call.pagesPath ++ pageName target), name] →
      disk.Opens call.pages name call.secondOpen
  /-- There is nothing to read from -1. -/
  unopened : (call.pages.reads (-1)).pieces = []
  /-- The socket takes all of it. -/
  taken : (call.message text).length ≤ call.accepts

-- ================================================================== the name

/-- A configuration file gives one pages path, however long it is read
for. -/
theorem pagesPathOf_unique {n m : Nat} {port : Int} {file : FileBehaviour}
    {r r' : Except Fault Str} (h : pagesPathOf n port file = some r)
    (h' : pagesPathOf m port file = some r') : r = r' := by
  obtain ⟨c, hc, rfl⟩ := Option.map_eq_some_iff.mp h
  obtain ⟨c', hc', rfl⟩ := Option.map_eq_some_iff.mp h'
  obtain ⟨kvs, hkvs, rfl⟩ := Option.map_eq_some_iff.mp hc
  obtain ⟨kvs', hkvs', rfl⟩ := Option.map_eq_some_iff.mp hc'
  rw [Config.loadFileTo_unique hkvs hkvs']

/-- The target of a message is text. -/
theorem nul_notMem_target {mem t : Str} (h : Tool.target (cut mem) = some t) :
    nul ∉ t := by
  unfold Tool.target at h
  obtain ⟨line, hline, hword⟩ := Option.bind_eq_some_iff.mp h
  intro hnul
  have hinline := Search.mem_of_mem_pieces (List.mem_of_getElem? hword) nul hnul
  have hmem := List.mem_of_mem_head? hline
  exact nul_notMem_cut mem (Search.mem_of_mem_pieces hmem nul hinline)

theorem Site.cut_pagesPath (site : Site) {page : Str} (h : nul ∉ page) :
    cut (site.pagesPath ++ page) = site.pagesPath ++ page := by
  apply cut_of_nulFree
  intro hmem
  exact (List.mem_append.mp hmem).elim site.nul_notMem_pagesPath h

-- ================================================================== the open

/-- What `try_open` comes to when there is a file, -/
theorem opened_of_pos {c : Call} (t : Str) (h : 0 < c.firstOpen.1) :
    c.opened t = ⟨c.pagesPath ++ pageName t, 200, c.firstOpen.1,
      [cut (c.pagesPath ++ pageName t)]⟩ :=
  congrArg Prod.snd (if_pos h)

/-- and when there is none. -/
theorem opened_of_failed {c : Call} (t : Str) (h : c.firstOpen.1 = -1) :
    c.opened t = match c.firstOpen.2 with
      | .eacces => ⟨c.pagesPath ++ pageName t, 403, -1,
          [cut (c.pagesPath ++ pageName t)]⟩
      | .enxio => ⟨c.pagesPath ++ pageName t, 500, c.secondOpen.1,
          [cut (c.pagesPath ++ pageName t),
            cut (c.laterPath ++ bytes "500.html")]⟩
      | .eexist => ⟨c.pagesPath ++ pageName t, c.oldStatus, -1,
          [cut (c.pagesPath ++ pageName t)]⟩
      | .eloop => ⟨c.pagesPath ++ pageName t, 503, -1,
          [cut (c.pagesPath ++ pageName t)]⟩
      | .efault | .einval | .eperm => ⟨c.pagesPath ++ pageName t, 500, -1,
          [cut (c.pagesPath ++ pageName t)]⟩
      | .other => ⟨c.pagesPath ++ pageName t, 404, c.secondOpen.1,
          [cut (c.pagesPath ++ pageName t), cut (bytes "./404.html")]⟩ := by
  have hfailed : ¬ 0 < c.firstOpen.1 := by omega
  rw [← h]
  refine (congrArg Prod.snd (if_neg hfailed)).trans ?_
  dsimp only [GetResponse.openName, Call.fs, Call.getResponse,
    List.isEmpty_nil]
  rw [if_pos rfl]
  cases c.firstOpen.2 with
  | eacces | enxio | eexist | eloop | efault | einval | eperm | other => rfl

-- ================================================================= one visit

theorem mem_statusCodes (code : StatusCode) :
    code ∈ statusCodes.map Prod.fst := by
  cases code <;> decide

/-- An enumerator is found again by the text of its number. -/
theorem statusCodeOf_value (code : StatusCode) :
    statusCodeOf (statusCodeNum code.value) = code := by
  obtain ⟨x, hx, rfl⟩ := List.mem_map.mp (mem_statusCodes code)
  exact statusCodeOf_num x hx

namespace Visit

variable {disk : Disk} {site : Site} (v : Visit disk site)

/-- What the file server has for it. -/
def page : StatusCode × Str := disk.page site.pagesPath v.target

/-- And what a client makes of that. -/
def reply : Reply :=
  ⟨bytes "HTTP/1.1", v.page.1, replyFields v.call.date, v.page.2⟩

theorem path_eq {path : Str}
    (h : path ∈ [v.call.pagesPath, v.call.laterPath]) :
    path = site.pagesPath := by
  obtain ⟨n, port, hn⟩ := v.path path h
  obtain ⟨m, hm⟩ := site.pagesPathOf_eq port
  exact Except.ok.inj (pagesPathOf_unique hn hm)

theorem pagesPath_eq : v.call.pagesPath = site.pagesPath :=
  v.path_eq (List.mem_cons_self ..)

theorem laterPath_eq : v.call.laterPath = site.pagesPath :=
  v.path_eq (List.mem_cons_of_mem _ (List.mem_singleton_self _))

/-- The name that is opened first. -/
theorem cut_name :
    cut (v.call.pagesPath ++ pageName v.target)
      = site.pagesPath ++ pageName v.target := by
  rw [v.pagesPath_eq]
  exact site.cut_pagesPath (nul_notMem_pageName (nul_notMem_target v.names))

/-- Behind -1 is no page. -/
theorem page_of_failed {r : GetResponse} (h : r.fileno = -1) :
    v.call.page r = [] := by
  unfold Call.page
  rw [h, v.unopened, List.flatten_nil, List.take_nil, ite_self]

/-- An error page is what the disk has. -/
theorem page_second {r : GetResponse} {name : Str}
    (hserved : Served r.responseStatus) (hfileno : r.fileno = v.call.secondOpen.1)
    (h : disk.Opens v.call.pages name v.call.secondOpen) :
    v.call.page r = disk.errorPage name := by
  unfold Disk.Opens at h
  unfold Disk.errorPage
  cases hdisk : disk name with
  | ok content =>
      rw [hdisk] at h
      unfold Call.page
      rw [if_pos hserved, hfileno, h.2]
  | error failure =>
      rw [hdisk] at h
      exact v.page_of_failed (hfileno.trans h.1)

/-- `try_open` comes to the status of the file server, and the read loops
to its page. -/
theorem opened_page :
    (v.call.opened v.target).responseStatus = v.page.1.value
      ∧ v.call.page (v.call.opened v.target) = v.page.2 := by
  have hfirst := v.first
  have hsecond := v.second
  unfold page Disk.page
  unfold Disk.Opens at hfirst
  rw [v.cut_name] at hfirst
  cases hdisk : disk (site.pagesPath ++ pageName v.target) with
  | ok content =>
      rw [hdisk] at hfirst
      rw [opened_of_pos _ hfirst.1]
      refine ⟨rfl, ?_⟩
      unfold Call.page
      rw [if_pos (.inl rfl), hfirst.2]
  | error failure =>
      rw [hdisk] at hfirst
      obtain ⟨hfd, hfailure⟩ := hfirst
      rw [opened_of_failed _ hfd] at hsecond ⊢
      cases herrno : v.call.firstOpen.2 with
      | eacces =>
          rw [herrno] at hfailure
          cases hfailure
          exact ⟨rfl, v.page_of_failed rfl⟩
      | eexist =>
          rw [herrno] at hfailure
          cases hfailure
      | eloop =>
          rw [herrno] at hfailure
          cases hfailure
          exact ⟨rfl, v.page_of_failed rfl⟩
      | efault | einval | eperm =>
          rw [herrno] at hfailure
          cases hfailure
          exact ⟨rfl, v.page_of_failed rfl⟩
      | enxio =>
          rw [herrno] at hfailure hsecond
          cases hfailure
          have hname := hsecond _ rfl
          rw [v.laterPath_eq, site.cut_pagesPath (by decide)] at hname
          exact ⟨rfl, v.page_second (.inr (.inr rfl)) rfl hname⟩
      | other =>
          rw [herrno] at hfailure hsecond
          cases hfailure
          have hname := hsecond _ rfl
          have hdot : cut (bytes "./404.html") = bytes "./404.html" := by decide
          rw [hdot] at hname
          exact ⟨rfl, v.page_second (.inr (.inl rfl)) rfl hname⟩

/-- So this is what is sent, -/
theorem told_eq : v.call.told v.text = some (v.page.1.value, v.page.2) := by
  obtain ⟨hstatus, hpage⟩ := v.opened_page
  unfold Call.told
  rw [v.method]
  dsimp only
  rw [v.names, Option.getD_some, hstatus, hpage]

/-- and this is what is read out of it. -/
theorem readReply_eq : readReply v.call.answer = some v.reply := by
  rw [readReply_answer v.read v.told_eq v.texts v.date v.taken,
    statusCodeOf_value]
  rfl

end Visit

-- ==================================================================== a run

/-- The server refines a file server. For every disk and configuration
and from any state of any run: when some more events have been handled
whose requests are visits, the clients have been sent that many answers
more, and what they read out of them is, in order, what the file server
has for their targets. -/
theorem pages_served (st : Start) (es : List Event) (disk : Disk) (site : Site) :
    Always RunState.step
      (Proc.WhileRunning fun s => ∀ es' s' (vs : List (Visit disk site)),
        run RunState.step (.running s) es' = some (.running s') →
        requests es' = vs.map Visit.call →
        s'.sent.map readReply
          = s.sent.map readReply ++ vs.map fun v => some v.reply)
      st.proc es := by
  refine always_whileRunning st (sound_start st) RunState.sound_goes ?_ es
  intro s hsound es' s' vs hrun hvisits
  have hread : (vs.map Visit.call).map (fun c => readReply c.answer)
      = vs.map fun v => some v.reply := by
    rw [List.map_map]
    exact List.map_congr_left fun v _ => v.readReply_eq
  rw [RunState.sent_run hsound hrun, List.map_append, List.map_map, hvisits]
  exact congrArg _ hread

-- ============================================================== one such visit

/-- A disk with one page on it, -/
def oneFile : Disk := fun name =>
  if name = bytes "/path/to/site/site/index.html" then .ok (bytes "hello")
  else .error .missing

/-- under a configuration file that stays what it is, -/
def defaultRead : ConfigRead :=
  ⟨.opens defaultConf.text .endOfFile, .opens defaultConf.text .endOfFile, 64, 0⟩

/-- and a client that asks for it. -/
def visitor : Call :=
  { hello with config := defaultRead, configAgain := defaultRead }

theorem defaultRead_pagesPath :
    defaultRead.pagesPath = bytes "/path/to/site/site/" := by
  decide +kernel

def visitorsVisit : Visit oneFile defaultConf where
  call := visitor
  text := bytes "GET / HTTP/1.1\r\n\r\n" ++ [nul]
  target := bytes "/"
  read := rfl
  method := by decide +kernel
  names := by decide +kernel
  path := by
    obtain ⟨n, hn⟩ := defaultConf.pagesPathOf_eq 0
    have hpath : defaultConf.pagesPath = bytes "/path/to/site/site/" := by
      decide +kernel
    rw [hpath, ← defaultRead_pagesPath] at hn
    intro path hmem
    have hone : path = defaultRead.pagesPath := by
      rcases List.mem_cons.mp hmem with hfirst | hsecond
      · exact hfirst
      · exact List.mem_singleton.mp hsecond
    rw [hone]
    exact ⟨n, 0, hn⟩
  texts := rfl
  date := by decide
  first := by
    have hdisk : oneFile (cut (visitor.pagesPath ++ pageName (bytes "/")))
        = .ok (bytes "hello") := by decide +kernel
    unfold Disk.Opens
    rw [hdisk]
    exact ⟨by decide, rfl⟩
  second := by
    intro name hname
    have hone : (visitor.opened (bytes "/")).opened.length = 1 := by
      decide +kernel
    rw [hname] at hone
    cases hone
  unopened := rfl
  taken := by decide +kernel

example : visitorsVisit.page = (.successOk, bytes "hello") := by decide +kernel

/-- The server outlives it. -/
example : visitor.Harmless (bytes "GET / HTTP/1.1\r\n\r\n" ++ [nul])
    (bytes "/") := by
  have hmethod : visitor.method (bytes "GET / HTTP/1.1\r\n\r\n" ++ [nul])
      = some .get := by decide +kernel
  refine ⟨⟨rfl, by decide +kernel, by decide +kernel, by decide,
    by decide +kernel, fun _ => by decide, ?_⟩, fun i line _ _ => rfl,
    fun _ => ?_, ?_⟩
  · rw [hmethod]
    refine ⟨by decide +kernel, by decide +kernel, fun _ => ?_⟩
    exact (sumLoop_le_iff _ (by decide)).mp (by decide +kernel)
  · exact ⟨bytes "/path/to/site/site/", by decide +kernel⟩
  · rw [hmethod]
    refine ⟨tryOpenConfig_ok_iff.mp (by decide +kernel), rfl,
      by decide +kernel, by decide +kernel, ?_⟩
    exact fun hzero => nomatch hzero

end TrashyServer.Server
