/-
Which runs of the server last.

Nothing in `run` or below it catches an exception or checks an array,
so one client can end the process for all of them. `Call.Harmless` says
of which calls of `do_somthing` this is not so. It is read off the memory
and the answers of the system alone, and it is exact (`run_ok_iff`).

It has two halves. A call is `Ready` if what `read` stored makes a
request and the handler of its method has room for what it makes of it
(`Call.Answers`): PUT never has, HEAD only if the heap goes on for
`MAXLINE` bytes behind its header. And it is harmless if besides the
configuration can be read, as often as it is asked for, the log takes
what it is handed as it is, and the client is still there when the
response is written (`Call.Outlasts`).

A run lasts exactly as long as its events are harmless
(`run_lasts_iff`); where the server has got to, and what was asked
before, makes no difference.
-/
import TrashyServer.Server.Proofs.Leftover
import TrashyServer.Server.Proofs.Overrun
import TrashyServer.Server.Proofs.Run

namespace TrashyServer.Server

open Log (Literal)
open Loop (andThen andThen_eq_ok mapError_eq_ok map_mapError_eq_ok)
open Runs
open Tool

-- ============================================================== the header

/-- The header fits its block. -/
theorem sprintf_ok_iff (heap : Heap headerSize) (text : Str) :
    (∃ block, sprintf heap text = .ok block) ↔ text.length < headerSize := by
  unfold sprintf
  split
  · next hfit => exact iff_of_true ⟨_, rfl⟩ hfit
  · next hfit =>
    refine iff_of_false ?_ hfit
    intro h
    obtain ⟨block, hblock⟩ := h
    cases hblock

/-- A header that fits leaves the block as long as it was. -/
theorem length_sprintf {heap : Heap headerSize} {text block : Str}
    (h : sprintf heap text = .ok block) : block.length = headerSize := by
  unfold sprintf at h
  split at h
  · next hfit =>
    cases h
    rw [List.length_append, List.length_cons, List.length_drop, heap.size]
    omega
  · cases h

/-- A HEAD has its header to print, and then all of `MAXLINE` to copy. -/
theorem headResponse_ok_iff (statusText : Nat → Str) (date : Str)
    (heap : Heap headerSize) (accepts : Nat) :
    (∃ sent, headResponse statusText date heap accepts = .ok sent)
      ↔ (pageHeader (statusText 200) date).length < headerSize
        ∧ maxline ≤ headerSize + heap.behind.length := by
  unfold headResponse
  rw [exists_bind_ok, ← sprintf_ok_iff heap]
  constructor
  · intro hgiven
    obtain ⟨block, hblock, h⟩ := hgiven
    obtain ⟨buff, hbuff, -⟩ := exists_bind_ok.mp h
    refine ⟨⟨block, hblock⟩, ?_⟩
    unfold memcpy at hbuff
    split at hbuff
    · next hroom =>
      rw [List.length_append, length_sprintf hblock] at hroom
      exact hroom.2
    · cases hbuff
  · intro hgiven
    obtain ⟨⟨block, hblock⟩, hroom⟩ := hgiven
    refine ⟨block, hblock, ?_⟩
    unfold memcpy
    rw [if_pos]
    · exact ⟨_, rfl⟩
    · rw [List.length_replicate, List.length_append, length_sprintf hblock]
      exact ⟨Nat.le_refl _, hroom⟩

-- ================================================================== a page

/-- A GET takes the suffix of its route and logs it, prints its header,
and reads its page. -/
theorem getResponse_ok_iff (file : FileName) (time : Stamp) (pagesPath : Str)
    (fs : FileSystem) (d : Descriptors) (heap : Heap headerSize)
    (headerBuff : Nat → Str) (accepts : Nat) (r : GetResponse) :
    (∃ sent, r.written file time pagesPath fs d
        (fun status => sprintf heap (headerBuff status)) accepts = .ok sent)
      ↔ ((strlen r.route < maxline ∧ r.route ≠ [])
          ∧ (headerBuff (r.tryOpen pagesPath fs).2.responseStatus).length
            < headerSize
          ∧ (Served (r.tryOpen pagesPath fs).2.responseStatus →
            Meets 0 (d.reads (r.tryOpen pagesPath fs).2.fileno).results.values))
        ∧ Literal (cut (suffixOf r.route)) := by
  rw [← readPage_meets_iff, ← sprintf_ok_iff heap]
  constructor
  · intro h
    obtain ⟨sent, hsent⟩ := h
    obtain ⟨hroute, hliteral, block, hblock, page, hpage, -⟩ :=
      (written_ok_iff file time pagesPath fs d _ accepts rfl).mp hsent
    exact ⟨⟨hroute, ⟨block, hblock⟩, page, hpage⟩, hliteral⟩
  · intro h
    obtain ⟨⟨hroute, ⟨block, hblock⟩, page, hpage⟩, hliteral⟩ := h
    exact ⟨_, (written_ok_iff file time pagesPath fs d _ accepts rfl).mpr
      ⟨hroute, hliteral, block, hblock, page, hpage, rfl⟩⟩

-- ======================================================= the default response

/-- What the array holds after a file has been read into it: the file's
end, and what was behind that before. -/
def pageLeft (content buff : Str) : Str :=
  content.drop (content.length - maxline)
    ++ buff.drop (min content.length maxline)

/-- Another block in front of a file of one block at least, itself lost;
of a shorter file it stays what the file does not reach. -/
theorem mem_pageLeft_block {content buff : Str}
    (h : maxline ≤ content.length) (b : UInt8) :
    b ∈ pageLeft (content.drop maxline)
        (content.take maxline ++ buff.drop maxline)
      ↔ b ∈ pageLeft content buff := by
  have htake : (content.take maxline).length = maxline :=
    List.length_take_of_le h
  have hover : (content.take maxline ++ buff.drop maxline).drop maxline
      = buff.drop maxline := by
    have hdrop : (content.take maxline ++ buff.drop maxline).drop
        (content.take maxline).length = buff.drop maxline := List.drop_left
    rwa [htake] at hdrop
  unfold pageLeft
  rw [List.length_drop, List.drop_drop, Nat.min_eq_right h]
  rcases Nat.le_total maxline (content.length - maxline) with hmore | hless
  · have hsame : maxline + (content.length - maxline - maxline)
        = content.length - maxline := by omega
    rw [Nat.min_eq_right hmore, hover, hsame]
  · have hall : content.length - maxline - maxline = 0 := by omega
    have hle : content.length - maxline ≤ (content.take maxline).length := by
      omega
    have hsplit : content.drop (content.length - maxline)
        = (content.take maxline).drop (content.length - maxline)
          ++ content.drop maxline := by
      rw [← List.drop_append_of_le_length hle, List.take_append_drop]
    rw [Nat.min_eq_left hless, hall, Nat.add_zero, hsplit,
      List.drop_append_of_le_length hle]
    simp only [List.mem_append]
    rw [or_assoc, or_left_comm]

/-- A round that fills the array, of whatever size. -/
theorem body_fills {content : Str} (h : maxline ≤ content.length)
    (ending : Ending) (buff : Str) :
    PageRead.body ⟨.fresh content ending, buff⟩
      = .ok ⟨.fresh (content.drop maxline) ending,
          content.take maxline ++ buff.drop maxline⟩ := by
  unfold PageRead.body
  dsimp only
  rw [FileStream.read_of_le h]
  dsimp only
  rw [List.length_take_of_le h]

/-- The loop over a file that can be read to its end takes a round more
than the file fills blocks. -/
theorem rounds_eq (content : Str) : ∀ (n : Nat) (buff : Str),
    (∃ p, content.length / maxline < n
      ∧ Loop.rounds PageRead.more PageRead.body n
        ⟨.fresh content .endOfFile, buff⟩ = some (.ok p)
      ∧ ∀ b, b ∈ p.buff ↔ b ∈ pageLeft content buff)
    ∨ (n ≤ content.length / maxline
      ∧ Loop.rounds PageRead.more PageRead.body n
        ⟨.fresh content .endOfFile, buff⟩ = none) := by
  have hmax : 0 < maxline := Nat.succ_pos _
  induction content using Blocks.block_induction hmax with
  | short content h =>
      intro n buff
      cases n with
      | zero => exact .inr ⟨Nat.zero_le _, rfl⟩
      | succ n =>
          left
          refine ⟨_, ?_, (Loop.rounds_of_ok rfl (body_of_lt h .endOfFile buff)
            n).trans (Loop.rounds_of_not rfl n), fun b => ?_⟩
          · rw [Nat.div_eq_of_lt h]
            exact Nat.succ_pos n
          · have hwhole : content.length - maxline = 0 := by omega
            unfold pageLeft
            rw [hwhole, Nat.min_eq_left h.le, List.drop_zero]
  | block content h ih =>
      intro n buff
      have hone := Nat.div_eq_sub_div hmax h
      cases n with
      | zero => exact .inr ⟨Nat.zero_le _, rfl⟩
      | succ n =>
          rw [Loop.rounds_of_ok rfl (body_fills h .endOfFile buff), hone,
            ← List.length_drop]
          rcases ih n (content.take maxline ++ buff.drop maxline) with
            ⟨p, hlast, hp, hmem⟩ | ⟨hfew, hnone⟩
          · exact .inl ⟨p, Nat.succ_lt_succ hlast, hp,
              fun b => (hmem b).trans (mem_pageLeft_block h b)⟩
          · exact .inr ⟨Nat.succ_le_succ hfew, hnone⟩

/-- A file that ends in an error is read for ever. -/
theorem rounds_of_readError (content : Str) : ∀ buff : Str,
    ¬ Loop.Ends PageRead.more PageRead.body
      ⟨.fresh content .readError, buff⟩ := by
  have hmax : 0 < maxline := Nat.succ_pos _
  induction content using Blocks.block_induction hmax with
  | short content h =>
      intro buff
      rw [Loop.ends_iff_of_ok rfl (body_of_lt h .readError buff)]
      exact page_not_ends rfl rfl
  | block content h ih =>
      intro buff
      rw [Loop.ends_iff_of_ok rfl (body_fills h .readError buff)]
      exact ih _

/-- A file from which the default response can put together its text
within `n` rounds: there is none, or it can be read to its end and a NUL
ends what it leaves in memory. -/
def Shown (n : Nat) (buff behind : Str) : FileBehaviour → Prop
  | .openFails => True
  | .opens content ending => ending = .endOfFile
      ∧ content.length / maxline < n ∧ nul ∈ pageLeft content buff ++ behind

theorem defaultResponse_ok_iff (n : Nat) (file : FileBehaviour)
    (buff behind headerBuff : Str) (accepts : Nat) :
    (∃ sent, defaultResponse n file buff behind headerBuff accepts
        = some (.ok sent)) ↔ Shown n buff behind file := by
  cases file with
  | openFails => exact iff_of_true ⟨_, rfl⟩ trivial
  | opens content ending =>
      cases ending with
      | readError =>
          refine iff_of_false ?_ fun h => nomatch h.1
          intro hgiven
          obtain ⟨sent, h⟩ := hgiven
          obtain ⟨r, hr, -⟩ := Option.map_eq_some_iff.mp h
          exact rounds_of_readError content buff ⟨n, r, hr⟩
      | endOfFile =>
          have hnew : FileStream.new (.opens content .endOfFile)
              = .fresh content .endOfFile := rfl
          unfold defaultResponse Shown
          dsimp only
          rw [hnew]
          rcases rounds_eq content n buff with ⟨p, hlast, hp, hmem⟩ | ⟨hfew, hnone⟩
          · have hnul : nul ∈ p.buff ++ behind
                ↔ nul ∈ pageLeft content buff ++ behind := by
              rw [List.mem_append, List.mem_append, hmem]
            rw [hp, Option.map_some, ok_bind, ← hnul]
            unfold cstr
            split
            · next hends =>
              exact iff_of_true ⟨_, rfl⟩ ⟨rfl, hlast, hends⟩
            · next hends =>
              refine iff_of_false ?_ fun h => hends h.2.2
              intro hgiven
              obtain ⟨sent, h⟩ := hgiven
              cases h
          · rw [hnone]
            refine iff_of_false ?_ fun h => Nat.not_lt.mpr hfew h.2.1
            intro hgiven
            obtain ⟨sent, h⟩ := hgiven
            cases h

-- ============================================================ the handlers

namespace Call

variable (c : Call)

/-- The memory the request is read from, when `read` has stored `d`. -/
def memory (d : Str) : Str := d ++ c.buff.drop d.length ++ c.behind

/-- The method of the request in it: the last one named there, or else
what its object's memory held. -/
def method (d : Str) : Option Method :=
  (lastNamed (Tool.lines (cut (c.memory d)))).or c.raw.requestMethod

/-- What a GET has made of the target when it comes to read its page. -/
def opened (t : Str) : GetResponse :=
  ((c.getResponse (c.pagesPath ++ pageName t)).tryOpen c.laterPath c.fs).2

/-- The handler has room for what it makes of the request. -/
def Answers (t : Str) : Handler → Prop
  | .getMethod =>
      (strlen (c.pagesPath ++ pageName t) < maxline
        ∧ c.pagesPath ++ pageName t ≠ [])
      ∧ (c.headerBuff (c.opened t).responseStatus).length < headerSize
      ∧ (Served (c.opened t).responseStatus →
          Meets 0 (c.pages.reads (c.opened t).fileno).results.values)
  | .postMethod => True
  | .headMethod => (c.headerBuff 200).length < headerSize
      ∧ maxline ≤ headerSize + c.heap.behind.length
  | .putMethod => False
  | .defaultMethod => (c.headerBuff 500).length < headerSize
      ∧ Shown c.rounds c.pageBuff c.pageBehind c.index

/-- A call whose handler can get to its end: `read` succeeds with `d`, the
memory is a request with the target `t`, and there is room for what is
made of it. -/
structure Ready (d t : Str) : Prop where
  read : c.read = some d
  ends : nul ∈ c.memory d
  target : Tool.target (cut (c.memory d)) = some t
  query : t.count question ≠ 1
  lines : ∀ line ∈ Tool.lines (cut (c.memory d)), ¬ CutsPastEnd line
  path : NeedsPath (c.method d) → t ≠ []
  answers : c.Answers t (dispatch (c.method d))

/-- `try_open` can make its object of the configuration, and gets the
pages path if it asks for it. -/
def Reconfigured : Prop :=
  if c.device then ∃ path, c.configAgain.getPagesPath = some (.ok path)
  else ∃ object, c.configAgain.object = some (.ok object)

/-- Nothing from outside ends the process while the handler is at work:
the configuration is there for a GET, which logs its suffix and its route
and these are literal, and whoever is written to has not reset his
connection. -/
def Outlasts (t : Str) : Handler → Prop
  | .getMethod => c.Reconfigured ∧ c.reset = false
      ∧ Literal (cut (suffixOf (c.pagesPath ++ pageName t)))
      ∧ Literal (cut (c.pagesPath ++ pageName t))
      ∧ (c.wroteNone = true →
          (cut (c.pagesPath ++ pageName t)).length < 4029)
  | .postMethod => True
  | .headMethod => c.reset = false
  | .putMethod => True
  | .defaultMethod => c.reset = false

/-- A call that does the server no harm. -/
structure Harmless (d t : Str) : Prop where
  ready : c.Ready d t
  /-- The strings that the parser hands to the log are taken as they
  are, -/
  objects : ∀ i line, (Tool.lines (cut (c.memory d)))[i]? = some line →
    attribFormat line ≠ none → Literal (c.object i).val
  /-- and the configuration gives the path that the handler asks for. -/
  site : NeedsPath (c.method d) →
    ∃ path, c.config.getPagesPath = some (.ok path)
  outlasts : c.Outlasts t (dispatch (c.method d))

end Call

-- ================================================================= its parts

theorem calls_ok_iff {α : Type} {x : Except Fault α} {a : α} :
    calls x = .ok a ↔ x = .ok a :=
  mapError_eq_ok

theorem configured_ok_iff {α : Type} {x : Option (Except Fault α)} {a : α} :
    configured x = some (.ok a) ↔ x = some (.ok a) :=
  map_mapError_eq_ok

/-- The process goes on behind messages that are all printed. -/
theorem logged_ok_iff {time : Stamp} {ls : List LogCall} :
    logged time ls = .ok () ↔ ∀ l ∈ ls, l.Logged time :=
  mapError_eq_ok.trans printed_ok_iff

/-- And behind a `write` to a client that is there. -/
theorem write_ok_iff {c : Call} {ls : List LogCall} :
    c.write ls = .ok () ↔ c.reset = false ∧ ∀ l ∈ ls, l.Logged c.time := by
  unfold Call.write
  cases c.reset with
  | true =>
      rw [if_pos rfl]
      exact iff_of_false (fun h => nomatch h) fun h => nomatch h.1
  | false =>
      rw [if_neg Bool.false_ne_true, logged_ok_iff]
      exact (and_iff_right rfl).symm

theorem tryOpenConfig_ok_iff {c : Call} :
    c.tryOpenConfig = some (.ok ()) ↔ c.Reconfigured := by
  have hunit : ∀ {α : Type} {x : Option (Except Fault α)},
      (configured x).map (·.map fun _ => ()) = some (.ok ())
        ↔ ∃ a, x = some (.ok a) := by
    intro α x
    match x with
    | none => exact iff_of_false (fun h => nomatch h) fun h => nomatch h.choose_spec
    | some (.error e) =>
        exact iff_of_false (fun h => nomatch h) fun h => nomatch h.choose_spec
    | some (.ok a) => exact iff_of_true rfl ⟨a, rfl⟩
  unfold Call.tryOpenConfig Call.Reconfigured
  split
  · exact hunit
  · exact hunit

/-- The path for a handler that asks for one. -/
theorem setPathConfig_ok {c : Call} {m : Option Method} {path : Str}
    (h : c.setPathConfig (dispatch m) = some (.ok path)) (hm : NeedsPath m) :
    c.config.getPagesPath = some (.ok path) ∧ path = c.pagesPath := by
  have hpath : c.config.getPagesPath = some (.ok path) := by
    rcases hm with rfl | rfl
    · exact configured_ok_iff.mp h
    · exact configured_ok_iff.mp h
  refine ⟨hpath, ?_⟩
  unfold Call.pagesPath ConfigRead.pagesPath
  rw [hpath]

theorem setPathConfig_ok_iff {c : Call} {m : Option Method} :
    (∃ path, c.setPathConfig (dispatch m) = some (.ok path))
      ↔ (NeedsPath m → ∃ path, c.config.getPagesPath = some (.ok path)) := by
  constructor
  · intro h hm
    obtain ⟨path, hpath⟩ := h
    exact ⟨path, (setPathConfig_ok hpath hm).1⟩
  · intro h
    cases m with
    | none => exact ⟨[], rfl⟩
    | some m =>
        cases m with
        | get =>
            obtain ⟨path, hpath⟩ := h (.inl rfl)
            exact ⟨path, configured_ok_iff.mpr hpath⟩
        | put =>
            obtain ⟨path, hpath⟩ := h (.inr rfl)
            exact ⟨path, configured_ok_iff.mpr hpath⟩
        | delete | post | head => exact ⟨[], rfl⟩

-- ============================================================= the handlers

/-- A HEAD gets to its end if its header can be copied and the client is
there, -/
theorem respond_head_ok_iff (c : Call) (store : Store) (utils : Dir.Utils)
    (p : HttpParse) :
    (∃ a, c.respond store utils p .headMethod = some (.ok a))
      ↔ ((c.headerBuff 200).length < headerSize
          ∧ maxline ≤ headerSize + c.heap.behind.length)
        ∧ c.reset = false := by
  refine Iff.trans ?_ (and_congr_left fun _ =>
    headResponse_ok_iff c.statusText c.date c.heap c.accepts)
  constructor
  · intro hgiven
    obtain ⟨a, h⟩ := hgiven
    obtain ⟨sent, hsent, h⟩ := bind_eq_ok.mp (Option.some.inj h)
    obtain ⟨_, hwrite, -⟩ := bind_eq_ok.mp h
    exact ⟨⟨sent, calls_ok_iff.mp hsent⟩, (write_ok_iff.mp hwrite).1⟩
  · intro hgiven
    obtain ⟨⟨sent, hsent⟩, hreset⟩ := hgiven
    have hwrite : c.write (headLogs c.wroteNone) = .ok () :=
      write_ok_iff.mpr ⟨hreset, logged_head c.wroteNone⟩
    exact ⟨⟨sent, none, store, utils⟩, congrArg some (bind_eq_ok.mpr
      ⟨sent, calls_ok_iff.mpr hsent, bind_eq_ok.mpr ⟨(), hwrite, rfl⟩⟩)⟩

/-- the default response if its header fits, its text can be put together
and the client is there, -/
theorem respond_default_ok_iff (c : Call) (store : Store) (utils : Dir.Utils)
    (p : HttpParse) :
    (∃ a, c.respond store utils p .defaultMethod = some (.ok a))
      ↔ ((c.headerBuff 500).length < headerSize
          ∧ Shown c.rounds c.pageBuff c.pageBehind c.index)
        ∧ c.reset = false := by
  rw [← sprintf_ok_iff c.heap, ← defaultResponse_ok_iff c.rounds c.index
    c.pageBuff c.pageBehind (c.headerBuff 500) c.accepts]
  constructor
  · intro hgiven
    obtain ⟨a, h⟩ := hgiven
    obtain ⟨block, hblock, h⟩ := andThen_eq_ok.mp h
    obtain ⟨sent, hsent, h⟩ := andThen_eq_ok.mp h
    obtain ⟨_, hwrite, -⟩ := bind_eq_ok.mp (Option.some.inj h)
    exact ⟨⟨⟨block, calls_ok_iff.mp (Option.some.inj hblock)⟩, sent,
      configured_ok_iff.mp hsent⟩, (write_ok_iff.mp hwrite).1⟩
  · intro hgiven
    obtain ⟨⟨⟨block, hblock⟩, sent, hsent⟩, hreset⟩ := hgiven
    have hwrite : c.write (defaultLogs c.file.text c.wroteNone c.index)
        = .ok () :=
      write_ok_iff.mpr ⟨hreset, logged_default c.file c.wroteNone c.index⟩
    exact ⟨⟨sent, none, store, utils⟩, andThen_eq_ok.mpr
      ⟨block, congrArg some (calls_ok_iff.mpr hblock), andThen_eq_ok.mpr
        ⟨sent, configured_ok_iff.mpr hsent, congrArg some
          (bind_eq_ok.mpr ⟨(), hwrite, rfl⟩)⟩⟩⟩

/-- and a GET if its response comes as far as `write`, and what is logged
of it then is literal. -/
theorem respond_get_ok_iff (c : Call) (store : Store) (utils : Dir.Utils)
    {p : HttpParse} {t : Str} (hroute : p.route = c.pagesPath ++ pageName t) :
    (∃ a, c.respond store utils p .getMethod = some (.ok a))
      ↔ c.Answers t .getMethod ∧ c.Outlasts t .getMethod := by
  have hget := getResponse_ok_iff c.file c.time c.laterPath c.fs c.pages
    c.heap c.headerBuff c.accepts (c.getResponse p.route)
  have hlog : c.write [sentLog c.wroteNone p.route] = .ok ()
      ↔ c.reset = false ∧ Literal (cut p.route)
        ∧ (c.wroteNone = true → (cut p.route).length < 4029) := by
    rw [write_ok_iff, List.forall_mem_singleton, logged_sent_iff]
  unfold Call.Answers Call.Outlasts Call.opened
  dsimp only
  rw [← hroute]
  constructor
  · intro hgiven
    obtain ⟨a, h⟩ := hgiven
    obtain ⟨_, hconfig, h⟩ := andThen_eq_ok.mp h
    obtain ⟨sent, hsent, h⟩ := bind_eq_ok.mp (Option.some.inj h)
    obtain ⟨_, hwrite, -⟩ := bind_eq_ok.mp h
    obtain ⟨hanswers, hsuffix⟩ := hget.mp ⟨sent, mapError_eq_ok.mp hsent⟩
    obtain ⟨hreset, hliteral⟩ := hlog.mp hwrite
    exact ⟨hanswers, tryOpenConfig_ok_iff.mp hconfig, hreset, hsuffix, hliteral⟩
  · intro hgiven
    obtain ⟨hanswers, hconfig, hreset, hsuffix, hliteral⟩ := hgiven
    obtain ⟨sent, hsent⟩ := hget.mpr ⟨hanswers, hsuffix⟩
    have hwrite := hlog.mpr ⟨hreset, hliteral⟩
    let opened := ((c.getResponse p.route).tryOpen c.laterPath c.fs).2
    exact ⟨⟨sent, pageOf opened.fileno, store, utils⟩, andThen_eq_ok.mpr
      ⟨(), tryOpenConfig_ok_iff.mpr hconfig, congrArg some (bind_eq_ok.mpr
        ⟨sent, mapError_eq_ok.mpr hsent, bind_eq_ok.mpr ⟨(), hwrite, rfl⟩⟩)⟩⟩

/-- The handler gets to its end exactly where there is room for it and it
is outlasted. -/
theorem respond_ok_iff (c : Call) (store : Store) (utils : Dir.Utils)
    {p : HttpParse} {t : Str} {handler : Handler}
    (hroute : handler = .getMethod → p.route = c.pagesPath ++ pageName t) :
    (∃ a, c.respond store utils p handler = some (.ok a))
      ↔ c.Answers t handler ∧ c.Outlasts t handler := by
  cases handler with
  | getMethod => exact respond_get_ok_iff c store utils (hroute rfl)
  | postMethod => exact iff_of_true ⟨_, rfl⟩ ⟨trivial, trivial⟩
  | headMethod => exact respond_head_ok_iff c store utils p
  | putMethod =>
      refine iff_of_false ?_ fun h => h.1
      intro hgiven
      obtain ⟨a, h⟩ := hgiven
      exact respond_put c store utils p a h
  | defaultMethod => exact respond_default_ok_iff c store utils p

-- ================================================================= a call

/-- The loop around `read` goes on until it is not interrupted. -/
theorem readLoop_reads (c : Call) : readLoop c.reads = c.read := by
  unfold Call.reads
  induction c.interrupts with
  | zero =>
      cases c.read with
      | none => rfl
      | some d => rfl
  | succ k ih => exact ih

/-- What `do_somthing` does once `read` has stored `d`. -/
theorem run_eq {c : Call} {d : Str} (hread : c.read = some d) (store : Store)
    (utils : Dir.Utils) :
    c.run store utils
      = andThen (some (calls (httpParse c.raw (c.memory d)))) fun p =>
        andThen (some (logged c.time (parserLogs c.toolFile.text c.object p)))
          fun _ =>
        andThen (c.setPathConfig (dispatch p.requestMethod)) fun pagesPath =>
        andThen (some (calls (makeResponse pagesPath p))) fun (handler, p) =>
        c.respond store utils p handler := by
  have hloop : readLoop c.reads = some d := by rw [readLoop_reads, hread]
  unfold Call.run
  rw [parsed_eq hloop]
  rfl

/-- Without `read` the process ends. -/
theorem run_none {c : Call} (hread : c.read = none) (store : Store)
    (utils : Dir.Utils) : c.run store utils = some (.error .exit) := by
  have hloop : readLoop c.reads = none := by rw [readLoop_reads, hread]
  unfold Call.run parsed
  rw [hloop]
  rfl

/-- Only a GET goes to its handler. -/
theorem dispatch_eq_get {m : Option Method} (h : dispatch m = .getMethod) :
    m = some .get := by
  cases m with
  | none => cases h
  | some m =>
      cases m with
      | get => rfl
      | put | delete | post | head => cases h

/-- What a call that comes back with the process alive has gone
through. -/
theorem run_parts {c : Call} {store : Store} {utils : Dir.Utils} {a : Answer}
    (h : c.run store utils = some (.ok a)) :
    ∃ d t p, c.Harmless d t
      ∧ (dispatch (c.method d) = .getMethod →
          p.route = c.pagesPath ++ pageName t)
      ∧ c.respond store utils p (dispatch (c.method d)) = some (.ok a) := by
  cases hread : c.read with
  | none =>
      rw [run_none hread] at h
      cases h
  | some d =>
      rw [run_eq hread] at h
      obtain ⟨p, hp, h⟩ := andThen_eq_ok.mp h
      obtain ⟨_, hlogged, h⟩ := andThen_eq_ok.mp h
      obtain ⟨path, hconfig, h⟩ := andThen_eq_ok.mp h
      obtain ⟨⟨handler, q⟩, hmade, h⟩ := andThen_eq_ok.mp h
      have hp := calls_ok_iff.mp (Option.some.inj hp)
      have hmade := calls_ok_iff.mp (Option.some.inj hmade)
      have hends : nul ∈ c.memory d := by
        by_contra hno
        rw [httpParse_overread c.raw hno] at hp
        cases hp
      obtain ⟨horigin, htarget, hmethod⟩ := httpParse_ok hends hp
      obtain ⟨t, ht, hone, hcut⟩ := (httpParse_ok_iff c.raw hends).mp ⟨p, hp⟩
      obtain rfl := Option.some.inj (ht.symm.trans htarget)
      obtain ⟨rfl, hroute⟩ := makeResponse_ok hmade
      have hpath := makeResponse_ok_iff.mp ⟨_, hmade⟩
      have hobjects := (logged_parser_iff c.toolFile c.object horigin).mp
        (logged_ok_iff.mp (Option.some.inj hlogged))
      have hsite : ∀ hm : NeedsPath p.requestMethod, _ :=
        fun hm => setPathConfig_ok hconfig hm
      rw [hmethod] at hroute hpath h hsite
      have hname : dispatch (c.method d) = .getMethod →
          q.route = c.pagesPath ++ pageName p.route := by
        intro hget
        have hm : NeedsPath (c.method d) := .inl (dispatch_eq_get hget)
        rw [hroute hm, (hsite hm).2]
      obtain ⟨hanswers, houtlasts⟩ :=
        (respond_ok_iff c store utils hname).mp ⟨a, h⟩
      exact ⟨d, p.route, q, ⟨⟨hread, hends, ht, hone, hcut, hpath, hanswers⟩,
        hobjects, fun hm => ⟨path, (hsite hm).1⟩, houtlasts⟩, hname, h⟩

/-- A call comes back with the process alive exactly when it is
harmless. -/
theorem run_ok_iff (c : Call) (store : Store) (utils : Dir.Utils) :
    (∃ a, c.run store utils = some (.ok a)) ↔ ∃ d t, c.Harmless d t := by
  constructor
  · intro hok
    obtain ⟨a, h⟩ := hok
    obtain ⟨d, t, p, hharmless, -, -⟩ := run_parts h
    exact ⟨d, t, hharmless⟩
  · intro hgiven
    obtain ⟨d, t, h⟩ := hgiven
    obtain ⟨p, hp⟩ := (httpParse_ok_iff c.raw h.ready.ends).mpr
      ⟨t, h.ready.target, h.ready.query, h.ready.lines⟩
    obtain ⟨horigin, htarget, hmethod⟩ := httpParse_ok h.ready.ends hp
    obtain rfl := Option.some.inj (h.ready.target.symm.trans htarget)
    have hlogged : logged c.time (parserLogs c.toolFile.text c.object p)
        = .ok () := logged_ok_iff.mpr
      ((logged_parser_iff c.toolFile c.object horigin).mpr h.objects)
    have hpath := h.ready.path
    have hsite := h.site
    have hanswers := h.ready.answers
    have houtlasts := h.outlasts
    unfold Call.method at hpath hsite hanswers houtlasts
    rw [← hmethod] at hpath hsite hanswers houtlasts
    obtain ⟨path, hconfig⟩ := setPathConfig_ok_iff.mpr hsite
    obtain ⟨⟨handler, q⟩, hmade⟩ : ∃ r, makeResponse path p = .ok r :=
      makeResponse_ok_iff.mpr hpath
    obtain ⟨rfl, hroute⟩ := makeResponse_ok hmade
    obtain ⟨a, ha⟩ := (respond_ok_iff c store utils (p := q) fun hget => by
      have hm : NeedsPath p.requestMethod := .inl (dispatch_eq_get hget)
      rw [hroute hm, (setPathConfig_ok hconfig hm).2]).mpr
        ⟨hanswers, houtlasts⟩
    refine ⟨a, ?_⟩
    rw [run_eq h.ready.read]
    refine andThen_eq_ok.mpr ⟨p, congrArg some (calls_ok_iff.mpr hp), ?_⟩
    refine andThen_eq_ok.mpr ⟨(), congrArg some hlogged, ?_⟩
    refine andThen_eq_ok.mpr ⟨path, hconfig, ?_⟩
    exact andThen_eq_ok.mpr ⟨_, congrArg some (calls_ok_iff.mpr hmade), ha⟩

-- ================================================================== a run

/-- The process has not ended. -/
def Proc.Running (p : Proc) : Prop := ∃ s, p = .running s

/-- The events that a server outlives. -/
def Event.Survives : Event → Prop
  | .wait fds => fds ≠ none
  | .accept fd prepared => fd ≠ none ∧ prepared = true
  | .request c => ∃ d t, c.Harmless d t
  | .interrupt => False

namespace RunState

variable {own : List Int} {s : RunState}

/-- What the loop does with a connection's event. -/
theorem step_request (s : RunState) (c : Call) :
    step (.running s) (.request c)
      = match s.batch with
        | [] => none
        | n :: rest =>
            if n ≠ s.sockfd ∧ s.canOpen c.firstOpen.1 = true
                ∧ s.canOpen c.secondOpen.1 = true then
              ((if n ∈ s.table then c else { c with read := none }).run s.store
                s.utils).map fun r =>
                match r with
                | .error e => .ended e
                | .ok a => .running ((s.take rest).handled n a)
            else none := rfl

/-- What comes next of a connection is handled, whatever has been
handled before, if and only if it is harmless. -/
theorem request_iff (h : Sound own s) {n : Int} {rest : List Int} {c : Call}
    (hbatch : s.batch = n :: rest) (hn : n ≠ s.sockfd)
    (hfirst : s.canOpen c.firstOpen.1 = true)
    (hsecond : s.canOpen c.secondOpen.1 = true) :
    (∃ s', step (.running s) (.request c) = some (.running s'))
      ↔ ∃ d t, c.Harmless d t := by
  have hmem : n ∈ s.batch := by
    rw [hbatch]
    exact List.mem_cons_self ..
  have hopen := h.open_of_live (h.live_of_batch hmem hn)
  rw [step_request, hbatch]
  dsimp only
  rw [if_pos ⟨hn, hfirst, hsecond⟩, if_pos hopen, ← run_ok_iff c s.store s.utils]
  constructor
  · intro hgiven
    obtain ⟨s', h⟩ := hgiven
    obtain ⟨r, hr, h⟩ := Option.map_eq_some_iff.mp h
    cases r with
    | error e => cases h
    | ok a => exact ⟨a, hr⟩
  · intro hgiven
    obtain ⟨a, ha⟩ := hgiven
    rw [ha]
    exact ⟨_, rfl⟩

/-- The server outlives a step exactly if it outlives the event. -/
theorem survives_iff_step (h : Sound own s) {e : Event} {p : Proc}
    (hstep : step (.running s) e = some p) : p.Running ↔ e.Survives := by
  cases e with
  | interrupt =>
      cases hstep
      refine iff_of_false ?_ id
      intro hgiven
      obtain ⟨s', h⟩ := hgiven
      cases h
  | wait fds =>
      simp only [step] at hstep
      split at hstep
      · cases hstep
        refine iff_of_false ?_ fun h => h rfl
        intro hgiven
        obtain ⟨s', h⟩ := hgiven
        cases h
      · split at hstep
        · cases hstep
          exact iff_of_true ⟨_, rfl⟩ (Option.some_ne_none _)
        · cases hstep
      · cases hstep
  | accept fd prepared =>
      simp only [step] at hstep
      split at hstep
      · cases hstep
      · split at hstep
        · split at hstep
          · cases hstep
            refine iff_of_false ?_ fun h => h.1 rfl
            intro hgiven
            obtain ⟨s', h⟩ := hgiven
            cases h
          · split at hstep
            · cases hstep
            · split at hstep
              · next hprepared =>
                cases hstep
                exact iff_of_true ⟨_, rfl⟩ ⟨Option.some_ne_none _, hprepared⟩
              · next hprepared =>
                cases hstep
                refine iff_of_false ?_ fun h => hprepared h.2
                intro hgiven
                obtain ⟨s', h⟩ := hgiven
                cases h
        · cases hstep
  | request c =>
      obtain ⟨n, rest, hbatch, hn, hfirst, hsecond⟩ : ∃ n rest,
          s.batch = n :: rest ∧ n ≠ s.sockfd
            ∧ s.canOpen c.firstOpen.1 = true
            ∧ s.canOpen c.secondOpen.1 = true := by
        simp only [step] at hstep
        split at hstep
        · cases hstep
        · next n rest hbatch =>
          split at hstep
          · next hcond => exact ⟨n, rest, hbatch, hcond⟩
          · cases hstep
      show _ ↔ ∃ d t, c.Harmless d t
      rw [← request_iff h hbatch hn hfirst hsecond, hstep]
      constructor
      · intro hgiven
        obtain ⟨s', rfl⟩ := hgiven
        exact ⟨s', rfl⟩
      · intro hgiven
        obtain ⟨s', h⟩ := hgiven
        exact ⟨s', Option.some.inj h⟩

end RunState

/-- A run lasts exactly as long as its events are harmless: the process
has not ended in any state of a run if and only if it outlives every
event the run takes, and that is said of the event alone. In each of
these states the next request is answered if and only if it is harmless,
so neither is one that is never done with. -/
theorem run_lasts_iff (st : Start) (es : List Event) :
    (Always RunState.step Proc.Running st.proc es
        ↔ Along RunState.step (fun _ e => e.Survives) st.proc es)
      ∧ Always RunState.step
        (Proc.WhileRunning fun s => ∀ n rest c, s.batch = n :: rest →
          n ≠ s.sockfd → s.canOpen c.firstOpen.1 = true →
          s.canOpen c.secondOpen.1 = true →
          ((∃ s', RunState.step (.running s) (.request c) = some (.running s'))
            ↔ ∃ d t, c.Harmless d t))
        st.proc es := by
  have hstart : Proc.WhileRunning (RunState.Sound st.own) st.proc := by
    intro s hs
    cases hs
    exact sound_start st
  refine ⟨⟨fun h => ?_, fun h => ?_⟩, ?_⟩
  · refine along_of_always (I := Proc.WhileRunning (RunState.Sound st.own))
      (whileRunning_step RunState.sound_goes) ?_ hstart h
    intro p e p' hsound hp hstep hrunning
    obtain ⟨s, rfl⟩ := hp
    exact (RunState.survives_iff_step (hsound s rfl) hstep).mp hrunning
  · refine always_of_along
      (I := fun p => p.Running ∧ p.WhileRunning (RunState.Sound st.own)) ?_
      (fun h => h.1) ⟨⟨_, rfl⟩, hstart⟩ h
    intro p e p' hp hsurvives hstep
    obtain ⟨⟨s, rfl⟩, hsound⟩ := hp
    exact ⟨(RunState.survives_iff_step (hsound s rfl) hstep).mpr hsurvives,
      whileRunning_step RunState.sound_goes hsound hstep⟩
  · exact always_whileRunning st (sound_start st) RunState.sound_goes
      (fun h _ _ _ hbatch hn hfirst hsecond =>
        RunState.request_iff h hbatch hn hfirst hsecond) es

end TrashyServer.Server
