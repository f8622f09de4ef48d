/-
What the server answers, said without the server.

`Call.answer` reads off one request what it is sent: the last method
that is named in its memory decides, a GET's page is what the calls of
`read` return as far as the array holds it, a HEAD's is the heap, and
that of the default response what its array holds when the file has run
out (`lastRound`). There is no parser in it, no loop and no exception,
and it speaks of one request only, with the memory that this is read into
and answered from.

The event loop computes just that. Whatever was requested before, by
whom and in which order, and whichever descriptors are given out, closed
and given out again meanwhile, the answers of a run are those that its
requests have by themselves in what memory they find
(`answers_of_requests`). The parts are one lemma for each loop, one for a
call (`run_answer`), and one for a step.
-/
import TrashyServer.Server.Proofs.Batch
import TrashyServer.Server.Proofs.Survive

namespace TrashyServer.Server

open Loop (andThen_eq_ok mapError_eq_ok)
open Runs
open Tool

-- ============================================================ the abstraction

instance (responseStatus : Nat) : Decidable (Served responseStatus) :=
  inferInstanceAs (Decidable (responseStatus = 200 ∨ responseStatus = 404
    ∨ responseStatus = 500))

/-- The array a file has been read into from the front, block by block:
what is behind the file's last whole block, and what that block, or the
memory, leaves behind it. -/
def lastRound (content buff : Str) : Str :=
  let before := match (Blocks.full maxline content).getLast? with
    | none => buff
    | some block => block ++ buff.drop maxline
  Blocks.rest maxline content
    ++ before.drop (Blocks.rest maxline content).length

namespace Call

variable (c : Call)

/-- The page behind the header of a GET that has come to `r`. -/
def page (r : GetResponse) : Str :=
  if Served r.responseStatus
  then (c.pages.reads r.fileno).pieces.flatten.take maxline else []

/-- The text of the default response. -/
def text : Str :=
  match c.index with
  | .openFails => []
  | .opens content _ => cut (lastRound content c.pageBuff ++ c.pageBehind)

/-- What a handler hands to `write` when `read` has stored `d`. -/
def message (d : Str) : Str :=
  match dispatch (c.method d) with
  | .getMethod =>
      let r := c.opened ((Tool.target (cut (c.memory d))).getD [])
      cut (c.headerBuff r.responseStatus) ++ c.page r
  | .headMethod =>
      (c.headerBuff 200 ++ nul
        :: c.heap.block.drop ((c.headerBuff 200).length + 1)
        ++ c.heap.behind).take maxline
  | .defaultMethod => cut (c.headerBuff 500) ++ c.text ++ [nul]
  | .postMethod => []
  | .putMethod => []

/-- The bytes that a request is answered with. -/
def answer : Str :=
  match c.read with
  | none => []
  | some d => (c.message d).take c.accepts

end Call

/-- The requests among the events. -/
def requests (es : List Event) : List Call :=
  es.filterMap fun
    | .request c => some c
    | _ => none

-- ================================================================== the loops

/-- A page that stays in its array is what the calls of `read` return,
as far as the array goes. -/
theorem pageLoop_eq (pieces : List Str) :
    ∀ {buff page : Str}, buff.length ≤ maxline →
      pageLoop buff pieces = .ok page →
      page = (buff ++ pieces.flatten).take maxline := by
  induction pieces with
  | nil =>
      intro buff page hbuff h
      cases h
      rw [List.flatten_nil, List.append_nil, List.take_of_length_le hbuff]
  | cons d pieces ih =>
      intro buff page hbuff h
      rw [List.flatten_cons, ← List.append_assoc]
      unfold pageLoop at h
      split at h
      · cases h
      · next hroom =>
        have hlen : (buff ++ d).length ≤ maxline := by
          rw [List.length_append]
          omega
        split at h
        · next hfull =>
          -- the array is full: nothing that comes behind is taken
          cases h
          rw [List.take_append_of_le_length hfull,
            List.take_of_length_le hlen]
        · exact ih hlen h

/-- The loop of the default response, over a file it comes to the end
of. -/
theorem rounds_lastRound (content : Str) :
    ∀ {n : Nat} {buff : Str} {p : PageRead},
      Loop.rounds PageRead.more PageRead.body n
        ⟨.fresh content .endOfFile, buff⟩ = some (.ok p) →
      p.buff = lastRound content buff := by
  have hmax : 0 < maxline := Nat.succ_pos _
  induction content using Blocks.block_induction hmax with
  | short content h =>
      intro n buff p hp
      cases n with
      | zero => cases hp
      | succ n =>
          rw [Loop.rounds_of_ok rfl (body_of_lt h .endOfFile buff),
            Loop.rounds_of_not rfl n] at hp
          cases hp
          unfold lastRound
          rw [Blocks.full_of_lt h, Blocks.rest_of_lt h]
          rfl
  | block content h ih =>
      intro n buff p hp
      cases n with
      | zero => cases hp
      | succ n =>
          rw [Loop.rounds_of_ok rfl (body_fills h .endOfFile buff)] at hp
          have hover : (content.take maxline ++ buff.drop maxline).drop maxline
              = buff.drop maxline :=
            List.drop_left' (List.length_take_of_le h)
          rw [ih hp]
          unfold lastRound
          rw [← Blocks.rest_of_le hmax h, Blocks.full_of_le hmax h,
            List.getLast?_cons]
          dsimp only
          congr 2
          cases (Blocks.full maxline (content.drop maxline)).getLast? with
          | none => rfl
          | some block => exact congrArg (block ++ ·) hover

-- =============================================================== the handlers

/-- The page of a GET. -/
theorem readPage_eq {c : Call} {r : GetResponse} {page : Str}
    (h : readPage r.responseStatus (c.pages.reads r.fileno).pieces = .ok page) :
    page = c.page r := by
  unfold Call.page
  split
  · next hserved =>
    rw [readPage_of_served hserved] at h
    exact pageLoop_eq _ (Nat.zero_le _) h
  · next hserved =>
    unfold readPage at h
    split at h
    · next h200 => exact absurd (.inl h200) hserved
    · next h404 => exact absurd (.inr (.inl h404)) hserved
    · next h500 => exact absurd (.inr (.inr h500)) hserved
    · cases h
      rfl

/-- The header that is printed is read back up to its NUL. -/
theorem cut_sprintf {heap : Heap headerSize} {text block : Str}
    (h : sprintf heap text = .ok block) : cut block = cut text := by
  unfold sprintf at h
  split at h
  · cases h
    exact cut_append_nul text _
  · cases h

/-- What a HEAD is answered with. -/
theorem headResponse_sent {statusText : Nat → Str} {date : Str}
    {heap : Heap headerSize} {accepts : Nat} {sent : Str}
    (h : headResponse statusText date heap accepts = .ok sent) :
    sent = ((pageHeader (statusText 200) date ++ nul
      :: heap.block.drop ((pageHeader (statusText 200) date).length + 1)
      ++ heap.behind).take maxline).take accepts := by
  obtain ⟨block, hblock, h⟩ := bind_eq_ok.mp h
  obtain ⟨buff, hbuff, h⟩ := bind_eq_ok.mp h
  cases h
  unfold sprintf at hblock
  split at hblock
  · cases hblock
    unfold memcpy at hbuff
    split at hbuff
    · cases hbuff
      have hover : (List.replicate maxline nul).drop maxline = [] :=
        List.drop_eq_nil_of_le List.length_replicate.le
      rw [hover, List.append_nil]
    · cases hbuff
  · cases hblock

/-- What the default response sends. -/
theorem defaultResponse_sent {c : Call} {sent : Str}
    (h : defaultResponse c.rounds c.index c.pageBuff c.pageBehind
      (c.headerBuff 500) c.accepts = some (.ok sent)) :
    sent = (cut (c.headerBuff 500) ++ c.text ++ [nul]).take c.accepts := by
  unfold Call.text
  unfold defaultResponse at h
  cases hindex : c.index with
  | openFails =>
      rw [hindex] at h
      cases h
      rw [List.append_nil]
  | opens content ending =>
      rw [hindex] at h
      obtain ⟨r, hr, h⟩ := Option.map_eq_some_iff.mp h
      obtain ⟨p, hp, hstored⟩ := bind_eq_ok.mp h
      obtain ⟨storage, hstorage, hsent⟩ := bind_eq_ok.mp hstored
      cases hsent
      rw [hp] at hr
      unfold cstr at hstorage
      split at hstorage
      · cases hstorage
        cases ending with
        | readError =>
            exact absurd ⟨_, _, hr⟩ (rounds_of_readError content c.pageBuff)
        | endOfFile => rw [rounds_lastRound content hr]
      · cases hstorage

/-- A handler that comes to its end has sent the message of its
request. -/
theorem respond_message {c : Call} {d t : Str} {store : Store}
    {utils : Dir.Utils} {p : HttpParse} {a : Answer}
    (htarget : Tool.target (cut (c.memory d)) = some t)
    (hroute : dispatch (c.method d) = .getMethod →
      p.route = c.pagesPath ++ pageName t)
    (h : c.respond store utils p (dispatch (c.method d)) = some (.ok a)) :
    a.sent = (c.message d).take c.accepts := by
  unfold Call.message
  cases hhandler : dispatch (c.method d) with
  | getMethod =>
      rw [hhandler] at h
      obtain ⟨_, -, h⟩ := andThen_eq_ok.mp h
      obtain ⟨sent, hsent, h⟩ := bind_eq_ok.mp (Option.some.inj h)
      obtain ⟨_, -, h⟩ := bind_eq_ok.mp h
      cases h
      rw [mapError_eq_ok, hroute hhandler] at hsent
      obtain ⟨-, -, block, hblock, page, hpage, hsent⟩ :=
        (written_ok_iff c.file c.time c.laterPath c.fs c.pages _ c.accepts
          rfl).mp hsent
      rw [readPage_eq hpage, cut_sprintf hblock] at hsent
      rw [htarget]
      exact hsent.symm
  | postMethod =>
      rw [hhandler] at h
      cases h
      rw [List.take_nil]
      rfl
  | headMethod =>
      rw [hhandler] at h
      obtain ⟨sent, hsent, h⟩ := bind_eq_ok.mp (Option.some.inj h)
      obtain ⟨_, -, h⟩ := bind_eq_ok.mp h
      cases h
      exact headResponse_sent (calls_ok_iff.mp hsent)
  | putMethod =>
      rw [hhandler] at h
      exact absurd h (respond_put c store utils p a)
  | defaultMethod =>
      rw [hhandler] at h
      obtain ⟨_, -, h⟩ := andThen_eq_ok.mp h
      obtain ⟨sent, hsent, h⟩ := andThen_eq_ok.mp h
      obtain ⟨_, -, h⟩ := bind_eq_ok.mp (Option.some.inj h)
      cases h
      exact defaultResponse_sent (configured_ok_iff.mp hsent)

/-- A call that comes back has sent the answer of its request. -/
theorem run_answer {c : Call} {store : Store} {utils : Dir.Utils} {a : Answer}
    (h : c.run store utils = some (.ok a)) : a.sent = c.answer := by
  obtain ⟨d, t, p, hharmless, hroute, hrespond⟩ := run_parts h
  unfold Call.answer
  rw [hharmless.ready.read]
  exact respond_message hharmless.ready.target hroute hrespond

-- ================================================================== a run

namespace RunState

variable {own : List Int} {s s' : RunState}

/-- What has been sent so far. -/
def sent (s : RunState) : List Str := s.answers.map Prod.snd

/-- A step sends the answer of its request, if it has one. -/
theorem sent_goes {e : Event} (h : Sound own s) (hgoes : s.Goes e s') :
    s'.sent = s.sent ++ (requests [e]).map Call.answer := by
  cases hgoes with
  | waited => exact (List.append_nil _).symm
  | accepted => exact (List.append_nil _).symm
  | @handled n rest c a hbatch hn hfirst hsecond hrun =>
      obtain ⟨-, -, -, hanswers⟩ := ledger_handled (s.take rest) n a
      have hmem : n ∈ s.batch := by
        rw [hbatch]
        exact List.mem_cons_self ..
      have hlive := h.live_of_batch hmem hn
      obtain ⟨l₁, i, l₂, -, -, -, hfind⟩ := live_split hlive
      have htaken : (s.take rest).live.find? (·.1 = n) = some (n, i) := hfind
      rw [if_pos (h.open_of_live hlive)] at hrun
      unfold sent
      rw [hanswers, htaken, List.map_append, run_answer hrun]
      rfl

/-- What a run sends. -/
theorem sent_run {es : List Event} :
    ∀ {s : RunState}, Sound own s →
      run step (.running s) es = some (.running s') →
      s'.sent = s.sent ++ (requests es).map Call.answer := by
  induction es with
  | nil =>
      intro s _ h
      cases h
      exact (List.append_nil _).symm
  | cons e es ih =>
      intro s h hrun
      obtain ⟨s₁, hgoes, hrest⟩ := run_cons_running hrun
      have hcons : requests (e :: es) = requests [e] ++ requests es :=
        List.filterMap_append (l := [e])
      rw [ih (sound_goes h hgoes) hrest, sent_goes h hgoes, hcons,
        List.map_append, List.append_assoc]

end RunState

/-- The server adds nothing to its requests: from any state of any run,
what it has sent when some more events have been handled is, in order and
byte for byte, what the requests among these have for their answers by
themselves. A request stands here with the memory it is read into and
answered from, which an earlier one may have left as it is. -/
theorem answers_of_requests (st : Start) (es : List Event) :
    Always RunState.step
      (Proc.WhileRunning fun s => ∀ es' s',
        run RunState.step (.running s) es' = some (.running s') →
        s'.sent = s.sent ++ (requests es').map Call.answer)
      st.proc es :=
  always_whileRunning st (sound_start st) RunState.sound_goes
    (fun h _ _ hrun => RunState.sent_run h hrun) es

end TrashyServer.Server
