/-
Which requests the log can be led astray by.

Among the requests that are ready, and so would come to their end but for
the log, the connection and the configuration, only a GET can make
`va_arg` run past the arguments by what its response logs, and it does
exactly if its route or its suffix shows a directive from the third
character on (`logs_iff`). The line is printed through an array of 4096
bytes for one level only, and of a route that is logged at that level the
length counts as well.

In a run such a message ends the process where it is logged. So of a
request that is handled all messages have been printed (`run_logged`).
-/
import TrashyServer.Server.Proofs.Drain

namespace TrashyServer.Server

open Log (Literal)
open Tool

variable {time : Stamp}

/-- The calls of a handler that there is room for. -/
theorem logged_handler_iff (file : FileName) (zero : Bool) {c : Call} {t : Str}
    {handler : Handler} (h : c.Answers t handler) :
    (∀ l ∈ c.logs file.text zero (c.pagesPath ++ pageName t) handler,
        l.Logged time)
      ↔ (handler = .getMethod →
        Literal (cut (suffixOf (c.pagesPath ++ pageName t)))
          ∧ Literal (cut (c.pagesPath ++ pageName t))
          ∧ (zero = true → (cut (c.pagesPath ++ pageName t)).length < 4029)) := by
  cases handler with
  | getMethod =>
      rw [imp_iff_right rfl]
      have hfileT : getTextFileT (c.pagesPath ++ pageName t) = .ok _ :=
        getTextFileT_eq_ok.mpr ⟨h.1, rfl⟩
      exact logged_get_iff file zero c.laterPath c.fs c.pages
        (r := c.getResponse (c.pagesPath ++ pageName t)) hfileT
  | postMethod =>
      exact iff_of_true (fun l hl => absurd hl List.not_mem_nil)
        (fun hno => nomatch hno)
  | headMethod => exact iff_of_true (logged_head zero) (fun hno => nomatch hno)
  | putMethod =>
      exact iff_of_true (fun l hl => absurd hl List.not_mem_nil)
        (fun hno => nomatch hno)
  | defaultMethod =>
      exact iff_of_true (logged_default file zero c.index)
        (fun hno => nomatch hno)

/-- A request that is handled has had all its messages printed. -/
theorem run_logged {c : Call} {store : Store} {utils : Dir.Utils} {a : Answer}
    (h : c.run store utils = some (.ok a)) :
    ∃ d t, c.Harmless d t
      ∧ ∀ l ∈ c.logs c.file.text c.wroteNone (c.pagesPath ++ pageName t)
        (dispatch (c.method d)), l.Logged c.time := by
  obtain ⟨d, t, hharmless⟩ := (run_ok_iff c store utils).mp ⟨a, h⟩
  refine ⟨d, t, hharmless,
    (logged_handler_iff c.file c.wroteNone hharmless.ready.answers).mpr ?_⟩
  intro hget
  have houtlasts := hharmless.outlasts
  rw [hget] at houtlasts
  exact houtlasts.2.2

/-- When the log stays with its arguments. Of every request that comes to
its end but for the log, whatever its method, its status and its page:
each of the messages its response logs takes only what was handed over,
and is printed, exactly if the request is no GET, or neither its route nor
what is taken for the route's suffix shows a `%s` or a `%d` from its third
character on, and the route fits the line that is printed when `write`
returns 0. -/
theorem logs_iff (file : FileName) (time : Stamp) (zero : Bool) {c : Call}
    {d t : Str} (h : c.Ready d t) :
    (∀ l ∈ c.logs file.text zero (c.pagesPath ++ pageName t)
        (dispatch (c.method d)), l.Logged time)
      ↔ (dispatch (c.method d) = .getMethod →
        ∃ fileT, getTextFileT (c.pagesPath ++ pageName t) = .ok fileT
          ∧ Literal (cut fileT) ∧ Literal (cut (c.pagesPath ++ pageName t))
          ∧ (zero = true → (cut (c.pagesPath ++ pageName t)).length < 4029)) := by
  rw [logged_handler_iff file zero h.answers]
  refine forall_congr' fun hget => ?_
  have hanswers := h.answers
  rw [hget] at hanswers
  constructor
  · intro hboth
    exact ⟨_, getTextFileT_eq_ok.mpr ⟨hanswers.1, rfl⟩, hboth⟩
  · intro hgiven
    obtain ⟨fileT, hfileT, hboth⟩ := hgiven
    rwa [(getTextFileT_eq_ok.mp hfileT).2] at hboth

/-- A page whose name is a directive, and that must not be read. -/
def spelled : Call :=
  { Call.post with
    read := some (bytes "GET /ab%s HTTP/1.1\r\n\r\n" ++ [nul])
    firstOpen := (-1, .eacces) }

theorem spelled_ready : spelled.Ready
    (bytes "GET /ab%s HTTP/1.1\r\n\r\n" ++ [nul]) (bytes "/ab%s") := by
  have hmethod : spelled.method
      (bytes "GET /ab%s HTTP/1.1\r\n\r\n" ++ [nul]) = some .get := by
    decide +kernel
  have hstatus : (spelled.opened (bytes "/ab%s")).responseStatus = 403 := by
    decide +kernel
  refine ⟨rfl, by decide +kernel, by decide +kernel, by decide,
    by decide +kernel, fun _ => by decide, ?_⟩
  rw [hmethod]
  refine ⟨by decide +kernel, ?_, fun hserved => ?_⟩
  · rw [hstatus]
    decide
  · rw [hstatus] at hserved
    unfold Served at hserved
    omega

theorem logs_iff_spelled :
    ¬ ∀ l ∈ spelled.logs serverCpp.text false (bytes "www/ab%s") .getMethod,
      l.Logged epoch := by
  have hroute : spelled.pagesPath ++ pageName (bytes "/ab%s")
      = bytes "www/ab%s" := by
    decide +kernel
  have hhandler : dispatch (spelled.method
      (bytes "GET /ab%s HTTP/1.1\r\n\r\n" ++ [nul])) = .getMethod := by
    decide +kernel
  have hiff := logs_iff serverCpp epoch false spelled_ready
  rw [hroute, hhandler] at hiff
  intro hall
  obtain ⟨_, -, -, hliteral, -⟩ := hiff.mp hall rfl
  revert hliteral
  decide

end TrashyServer.Server
