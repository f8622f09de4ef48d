/-
Which pages arrive whole.

# GET

The loop keeps what it reads in order (`pageLoop_within`) and never more
than `MAXLINE` bytes of it (`length_pageLoop`), so a page that is larger
does not arrive; and all of it is one call of `write`, so the socket has
to take all of it at once. Before any of that the response takes the
suffix of its route and logs it, and a suffix that the log reads on in
ends it there (`written_ok_iff`).

# DEFAULT

The loop stores every block over the one before. A page of at most one
block stays in the array as it is, in front of what the array held; a
larger one does not arrive (`rounds_of_file`). The array is then read as
a C string and written with a NUL behind it: the page arrives if that
NUL is its own last byte, or if the socket takes all but that byte.
-/
import TrashyServer.Lib.Blocks
import TrashyServer.Server.Respond
import TrashyServer.Server.Proofs.Messages
import TrashyServer.Config.Proofs.Load

namespace TrashyServer.Server

open Config (dot strcpy strOffsetL offsetLoop)
open Log (Literal)

-- ============================================================== the suffix

/-- The pointer points at the character. -/
theorem lastFrom_eq_some {c : UInt8} {s text : Str}
    (h : lastFrom c s = some text) : c ∈ s ∧ text.headD nul = c := by
  induction s with
  | nil => cases h
  | cons b s ih =>
      unfold lastFrom at h
      split at h
      · next hlater =>
        obtain ⟨hmem, hhead⟩ := ih (h ▸ hlater)
        exact ⟨List.mem_cons_of_mem _ hmem, hhead⟩
      · split at h
        · next hb =>
          cases h
          exact ⟨hb ▸ List.mem_cons_self .., hb⟩
        · cases h

/-- And a null pointer says that there is none. -/
theorem lastFrom_eq_none {c : UInt8} {s : Str} (h : lastFrom c s = none) :
    c ∉ s := by
  induction s with
  | nil => exact List.not_mem_nil
  | cons b s ih =>
      unfold lastFrom at h
      split at h
      · cases h
      · next hlater =>
        split at h
        · cases h
        · next hb =>
          rw [List.mem_cons, not_or]
          exact ⟨fun hc => hb hc.symm, ih hlater⟩

/-- What is taken for the suffix of a path: the text behind its first
dot, or without one all but its first byte. -/
def suffixOf (str : Str) : Str :=
  if dot ∈ cut str then str.drop (((cut str).takeWhile (· ≠ dot)).length + 1)
  else str.drop 1

/-- The offset at which the suffix is cut off is within a path that is not
empty. -/
theorem strOffsetL_le {str : Str} (h : str ≠ []) :
    strOffsetL (cut str) (strrchr (cut str) dot) + 1 ≤ str.length
      ∧ str.drop (strOffsetL (cut str) (strrchr (cut str) dot) + 1)
        = suffixOf str := by
  have hpos := List.length_pos_iff.mpr h
  unfold suffixOf strOffsetL strrchr
  rw [cut_of_nulFree (nul_notMem_cut str)]
  cases hlast : lastFrom dot (cut str) with
  | none =>
      rw [if_neg (lastFrom_eq_none hlast)]
      exact ⟨hpos, rfl⟩
  | some text =>
      obtain ⟨hmem, hhead⟩ := lastFrom_eq_some hlast
      have hcut := length_cut_le str
      have hlt := Config.takeWhile_length_lt hmem
      dsimp only
      rw [hhead, Config.offsetLoop_eq (nul_notMem_cut str) hmem, if_pos hmem]
      exact ⟨by omega, rfl⟩

/-- The suffix is taken from a path that fits the buffer and is not
empty. -/
theorem getTextFileT_eq_ok {str t : Str} :
    getTextFileT str = .ok t
      ↔ (strlen str < maxline ∧ str ≠ []) ∧ t = suffixOf str := by
  unfold getTextFileT strcpy
  by_cases hfit : strlen str < maxline
  · rw [if_pos hfit, ok_bind]
    dsimp only
    by_cases hne : str = []
    · refine iff_of_false ?_ fun h => h.1.2 hne
      intro h
      rw [substr_of_lt (by rw [hne]; exact Nat.succ_pos _)] at h
      cases h
    · obtain ⟨hroom, hdrop⟩ := strOffsetL_le hne
      rw [substr_of_le hroom, hdrop, Except.ok.injEq,
        List.take_of_length_le, and_iff_right ⟨hfit, hne⟩]
      · exact eq_comm
      · rw [← hdrop, List.length_drop]
        exact Nat.sub_le _ _
  · rw [if_neg hfit]
    refine iff_of_false ?_ fun h => hfit h.1.1
    intro h
    cases h

-- ==================================================================== GET

/-- The statuses that a page is sent with. -/
def Served (responseStatus : Nat) : Prop :=
  responseStatus = 200 ∨ responseStatus = 404 ∨ responseStatus = 500

theorem readPage_of_served {responseStatus : Nat} (h : Served responseStatus)
    (pieces : List Str) :
    readPage responseStatus pieces = pageLoop [] pieces := by
  rcases h with rfl | rfl | rfl
  · rfl
  · rfl
  · rfl

/-- Pieces that fit are all kept. -/
theorem pageLoop_of_le (pieces : List Str) :
    ∀ {buff : Str}, (buff ++ pieces.flatten).length ≤ maxline →
      pageLoop buff pieces = .ok (buff ++ pieces.flatten) := by
  induction pieces with
  | nil =>
      intro buff _
      rw [List.flatten_nil, List.append_nil]
      rfl
  | cons d pieces ih =>
      intro buff h
      rw [List.flatten_cons, ← List.append_assoc] at h ⊢
      have hlen : (buff ++ d).length ≤ maxline := by
        rw [List.length_append] at h
        omega
      have hroom : ¬ maxline < buff.length + d.length := by
        rw [List.length_append] at hlen
        omega
      unfold pageLoop
      rw [if_neg hroom]
      split
      · next hfull =>
        -- the array is full, and nothing is left behind it
        have hrest : pieces.flatten = [] := by
          rw [List.length_append] at h
          exact List.length_eq_zero_iff.mp (by omega)
        rw [hrest, List.append_nil]
      · exact ih h

/-- What is kept is the front of what was read, -/
theorem pageLoop_within (pieces : List Str) :
    ∀ {buff page : Str}, pageLoop buff pieces = .ok page →
      page <+: buff ++ pieces.flatten := by
  induction pieces with
  | nil =>
      intro buff page h
      cases h
      exact List.prefix_append _ _
  | cons d pieces ih =>
      intro buff page h
      rw [List.flatten_cons, ← List.append_assoc]
      unfold pageLoop at h
      split at h
      · cases h
      · split at h
        · cases h
          exact List.prefix_append _ _
        · exact ih h

/-- and fits the array. -/
theorem length_pageLoop (pieces : List Str) :
    ∀ {buff page : Str}, buff.length ≤ maxline →
      pageLoop buff pieces = .ok page → page.length ≤ maxline := by
  induction pieces with
  | nil =>
      intro buff page hbuff h
      cases h
      exact hbuff
  | cons d pieces ih =>
      intro buff page hbuff h
      unfold pageLoop at h
      split at h
      · cases h
      · next hroom =>
        have hlen : (buff ++ d).length ≤ maxline := by
          rw [List.length_append]
          omega
        split at h
        · cases h
          exact hlen
        · exact ih hlen h

/-- A cut that leaves everything, and something behind it perhaps. -/
theorem take_append_eq_iff {h page file : Str} {accepts : Nat}
    (hpage : page <+: file) :
    (h ++ page).take accepts = h ++ file
      ↔ page = file ∧ h.length + file.length ≤ accepts := by
  constructor
  · intro heq
    have hlen := congrArg List.length heq
    rw [List.length_take, List.length_append, List.length_append] at hlen
    have hle := hpage.length_le
    exact ⟨hpage.eq_of_length (by omega), by omega⟩
  · intro hboth
    obtain ⟨rfl, haccepts⟩ := hboth
    apply List.take_of_length_le
    rw [List.length_append]
    exact haccepts

theorem called_ok_iff {α : Type} {x : Except Fault α} {a : α} :
    called x = .ok a ↔ x = .ok a :=
  Loop.mapError_eq_ok

/-- Messages let a response go on if all of them are printed. -/
theorem messages_ok_iff {time : Stamp} {ls : List LogCall} :
    messages time ls = .ok () ↔ ∀ l ∈ ls, l.Logged time :=
  Loop.mapError_eq_ok.trans printed_ok_iff

/-- A GET comes as far as `write` if there is a suffix to take, which the
log takes as it is, a header, and room for the page. -/
theorem written_ok_iff (file : FileName) (time : Stamp) (pagesPath : Str)
    (fs : FileSystem) (d : Descriptors) (headerBuff : Nat → Except Fault Str)
    (accepts : Nat) {r r' : GetResponse} (hr : (r.tryOpen pagesPath fs).2 = r')
    {sent : Str} :
    r.written file time pagesPath fs d headerBuff accepts = .ok sent
      ↔ (strlen r.route < maxline ∧ r.route ≠ [])
        ∧ Literal (cut (suffixOf r.route))
        ∧ ∃ block, headerBuff r'.responseStatus = .ok block
          ∧ ∃ page, readPage r'.responseStatus (d.reads r'.fileno).pieces
              = .ok page
            ∧ (cut block ++ page).take accepts = sent := by
  have hopen : messages time (r.tryOpenLogs pagesPath fs) = .ok () :=
    messages_ok_iff.mpr (logged_tryOpen pagesPath fs r)
  have hsuffix : messages time (suffixLogs r.route) = .ok () :=
    messages_ok_iff.mpr (logged_suffix r.route)
  have htype : ∀ fileT : Str, messages time [typeLog fileT] = .ok ()
      ↔ Literal (cut fileT) := fun fileT =>
    messages_ok_iff.trans (List.forall_mem_singleton.trans (logged_type_iff fileT))
  have hpage : messages time (pageLogs file.text r'.responseStatus
      (d.reads r'.fileno).results.values) = .ok () :=
    messages_ok_iff.mpr (logged_page file _ _)
  unfold GetResponse.written
  dsimp only
  rw [hr, hopen, hsuffix, hpage]
  constructor
  · intro h
    obtain ⟨_, -, h⟩ := bind_eq_ok.mp h
    obtain ⟨_, -, h⟩ := bind_eq_ok.mp h
    obtain ⟨fileT, hfileT, h⟩ := bind_eq_ok.mp h
    obtain ⟨hroute, rfl⟩ := getTextFileT_eq_ok.mp (called_ok_iff.mp hfileT)
    obtain ⟨_, hliteral, h⟩ := bind_eq_ok.mp h
    obtain ⟨block, hblock, h⟩ := bind_eq_ok.mp h
    obtain ⟨page, hread, h⟩ := bind_eq_ok.mp h
    obtain ⟨_, -, h⟩ := bind_eq_ok.mp h
    exact ⟨hroute, (htype _).mp hliteral, block, called_ok_iff.mp hblock, page,
      called_ok_iff.mp hread, Except.ok.inj h⟩
  · intro h
    obtain ⟨hroute, hliteral, block, hblock, page, hread, rfl⟩ := h
    rw [getTextFileT_eq_ok.mpr ⟨hroute, rfl⟩, hblock, hread]
    have hrest : ((messages time [typeLog (suffixOf r.route)]) >>= fun _ =>
        (.ok ((cut block ++ page).take accepts) : Except Stop Str))
        = .ok ((cut block ++ page).take accepts) :=
      bind_eq_ok.mpr ⟨(), (htype _).mpr hliteral, rfl⟩
    exact hrest

/-- The file behind the descriptor that `try_open` leaves arrives behind
the header. -/
def GetWhole (file : FileName) (time : Stamp) (pagesPath : Str)
    (fs : FileSystem) (d : Descriptors) (headerBuff : Nat → Str)
    (accepts : Nat) (r : GetResponse) : Prop :=
  let r' := (r.tryOpen pagesPath fs).2
  r.written file time pagesPath fs d (fun status => .ok (headerBuff status))
      accepts
    = .ok (cut (headerBuff r'.responseStatus) ++ d.file r'.fileno)

/-- What it takes: the route has a suffix to take, which shows no
directive from its third character on, the file fits the array, it is
read to its end, and the socket takes all of it at once. -/
def GetFits (pagesPath : Str) (fs : FileSystem) (d : Descriptors)
    (headerBuff : Nat → Str) (accepts : Nat) (r : GetResponse) : Prop :=
  let r' := (r.tryOpen pagesPath fs).2
  (strlen r.route < maxline ∧ r.route ≠ [])
    ∧ Literal (cut (suffixOf r.route))
    ∧ (d.file r'.fileno).length ≤ maxline
    ∧ (d.reads r'.fileno).pieces.flatten = d.file r'.fileno
    ∧ (cut (headerBuff r'.responseStatus)).length + (d.file r'.fileno).length
      ≤ accepts

theorem get_whole_iff (file : FileName) (time : Stamp) (pagesPath : Str)
    (fs : FileSystem) (d : Descriptors) (headerBuff : Nat → Str)
    (accepts : Nat) (r : GetResponse)
    (hserved : Served (r.tryOpen pagesPath fs).2.responseStatus) :
    GetWhole file time pagesPath fs d headerBuff accepts r
      ↔ GetFits pagesPath fs d headerBuff accepts r := by
  unfold GetWhole GetFits
  dsimp only
  rw [written_ok_iff file time pagesPath fs d _ accepts rfl]
  generalize (r.tryOpen pagesPath fs).2 = r' at hserved ⊢
  rw [readPage_of_served hserved]
  have hwithin := (d.reads r'.fileno).within
  generalize (d.reads r'.fileno).pieces = pieces at hwithin ⊢
  generalize d.file r'.fileno = file at hwithin ⊢
  generalize headerBuff r'.responseStatus = buff
  refine and_congr_right fun _ => and_congr_right fun _ => ?_
  constructor
  · intro h
    obtain ⟨block, hblock, page, hpage, hput⟩ := h
    cases hblock
    have hfront := pageLoop_within pieces hpage
    rw [List.nil_append] at hfront
    obtain ⟨rfl, haccepts⟩ :=
      (take_append_eq_iff (hfront.trans hwithin)).mp hput
    have hlen := length_pageLoop pieces (Nat.zero_le _) hpage
    have hwhole := hwithin.eq_of_length
      (Nat.le_antisymm hwithin.length_le hfront.length_le)
    exact ⟨hlen, hwhole, haccepts⟩
  · intro h
    obtain ⟨hlen, rfl, haccepts⟩ := h
    have hpage : pageLoop [] pieces = .ok pieces.flatten :=
      pageLoop_of_le pieces hlen
    exact ⟨buff, rfl, pieces.flatten, hpage,
      (take_append_eq_iff (List.prefix_refl _)).mpr ⟨rfl, haccepts⟩⟩

-- ================================================================= DEFAULT

/-- What a stream gives of a file: all of it, or a part and then an
error. -/
structure Streamed (file : Str) where
  content : Str
  ending : Ending
  within : content <+: file
  whole : ending = .endOfFile → content = file

/-- The array and what follows it, before the response: there is a NUL
somewhere. -/
structure Memory where
  buff : Str
  behind : Str
  size : buff.length = maxline
  ends : nul ∈ behind

/-- A round that does not fill the array. -/
theorem body_of_lt {content : Str} (h : content.length < maxline)
    (ending : Ending) (buff : Str) :
    PageRead.body ⟨.fresh content ending, buff⟩
      = .ok ⟨(FileStream.fresh content ending).runOut (ending = .endOfFile),
          content ++ buff.drop content.length⟩ := by
  unfold PageRead.body
  dsimp only
  rw [FileStream.read_of_lt h]

/-- A round that fills it. -/
theorem body_of_le {content : Str} (h : maxline ≤ content.length)
    (ending : Ending) {buff : Str} (hbuff : buff.length = maxline) :
    PageRead.body ⟨.fresh content ending, buff⟩
      = .ok ⟨.fresh (content.drop maxline) ending, content.take maxline⟩ := by
  have hover : buff.drop (content.take maxline).length = [] := by
    rw [List.length_take, Nat.min_eq_left h, ← hbuff, List.drop_length]
  unfold PageRead.body
  dsimp only
  rw [FileStream.read_of_le h]
  dsimp only
  rw [hover, List.append_nil]

/-- The loop over a file: what is in the array at the end. Of a file that
is one byte larger than it, that byte comes to stand at the front. -/
theorem rounds_of_file (content : Str) :
    ∀ {buff : Str}, buff.length = maxline →
      ∃ n f b, Loop.rounds PageRead.more PageRead.body n
          ⟨.fresh content .endOfFile, buff⟩ = some (.ok ⟨f, b⟩)
        ∧ b.length = maxline
        ∧ (content.length ≤ maxline → b = content ++ buff.drop content.length)
        ∧ (content.length = maxline + 1 → b.head? = content.getLast?) := by
  have hmax : 0 < maxline := Nat.succ_pos _
  induction content using Blocks.block_induction hmax with
  | short content h =>
      intro buff hbuff
      refine ⟨1, _, _, (Loop.rounds_of_ok rfl
        (body_of_lt h .endOfFile buff) 0).trans (Loop.rounds_of_not rfl 0),
        ?_, fun _ => rfl, ?_⟩
      · rw [List.length_append, List.length_drop]
        omega
      · omega
  | block content h ih =>
      intro buff hbuff
      have htake : (content.take maxline).length = maxline := by
        rw [List.length_take, Nat.min_eq_left h]
      obtain ⟨n, f, b, hn, hlen, hshort, -⟩ := ih htake
      refine ⟨n + 1, f, b, (Loop.rounds_of_ok rfl
        (body_of_le h .endOfFile hbuff) n).trans hn, hlen, ?_, ?_⟩
      · intro hfull
        have hdrop : content.drop maxline = [] := List.drop_eq_nil_of_le hfull
        rw [hshort (by rw [hdrop]; exact Nat.zero_le _), hdrop,
          List.nil_append, List.length_nil, List.drop_zero,
          List.take_of_length_le hfull,
          List.drop_eq_nil_of_le (hbuff.symm ▸ h), List.append_nil]
      · intro hlast
        have hrest : (content.drop maxline).length = 1 := by
          rw [List.length_drop]
          omega
        obtain ⟨x, hx⟩ := List.length_eq_one_iff.mp hrest
        have hsplit : content.take maxline ++ [x] = content := by
          rw [← hx, List.take_append_drop]
        rw [hshort (by omega), hx, ← hsplit, List.getLast?_concat]
        rfl

/-- A stream that is not good and not at its end is read for ever. -/
theorem page_not_ends {p : PageRead} (heof : p.file.eof = false)
    (hgood : p.file.good = false) :
    ¬ Loop.Ends PageRead.more PageRead.body p := by
  apply FileStream.not_ends PageRead.file (fun _ => rfl) _ heof hgood
  intro p hp
  refine ⟨⟨{ p.file with fail := true }, p.buff⟩, ?_, rfl⟩
  unfold PageRead.body
  rw [FileStream.read_of_not_good hp]
  rfl

/-- A read error behind any content. -/
theorem page_not_ends_of_readError (content : Str) :
    ∀ {buff : Str}, buff.length = maxline →
      ¬ Loop.Ends PageRead.more PageRead.body
        ⟨.fresh content .readError, buff⟩ := by
  have hmax : 0 < maxline := Nat.succ_pos _
  induction content using Blocks.block_induction hmax with
  | short content h =>
      intro buff _
      rw [Loop.ends_iff_of_ok rfl (body_of_lt h .readError buff)]
      exact page_not_ends rfl rfl
  | block content h ih =>
      intro buff hbuff
      rw [Loop.ends_iff_of_ok rfl (body_of_le h .readError hbuff)]
      apply ih
      rw [List.length_take, Nat.min_eq_left h]

/-- The file arrives behind the header, whatever the memory holds. -/
def DefaultWhole {file : Str} (s : Streamed file) (headerBuff : Str)
    (accepts : Nat) : Prop :=
  ∀ m : Memory, ∃ n,
    defaultResponse n (.opens s.content s.ending) m.buff m.behind headerBuff
        accepts = some (.ok (cut headerBuff ++ file))

/-- What is put on the socket when the loop ends. -/
theorem defaultResponse_of_rounds {content : Str} {ending : Ending}
    {buff behind : Str} {n : Nat} {p : PageRead}
    (h : Loop.rounds PageRead.more PageRead.body n
      ⟨.fresh content ending, buff⟩ = some (.ok p)) (hends : nul ∈ behind)
    (headerBuff : Str) (accepts : Nat) :
    defaultResponse n (.opens content ending) buff behind headerBuff accepts
      = some (.ok ((cut headerBuff ++ cut (p.buff ++ behind) ++ [nul]).take
          accepts)) := by
  have hstorage : cstr (p.buff ++ behind) = .ok (cut (p.buff ++ behind)) :=
    if_pos (List.mem_append_right _ hends)
  show (Loop.rounds PageRead.more PageRead.body n
    ⟨.fresh content ending, buff⟩).map _ = _
  rw [h, Option.map_some, ok_bind, hstorage]
  rfl

/-- What is put on the socket does not depend on the number of rounds. -/
theorem defaultResponse_unique {n m : Nat} {content : Str} {ending : Ending}
    {buff behind headerBuff : Str} {accepts : Nat} {r r' : Except Fault Str}
    (h : defaultResponse n (.opens content ending) buff behind headerBuff
      accepts = some r)
    (h' : defaultResponse m (.opens content ending) buff behind headerBuff
      accepts = some r') : r = r' := by
  obtain ⟨p, hp, rfl⟩ := Option.map_eq_some_iff.mp h
  obtain ⟨p', hp', rfl⟩ := Option.map_eq_some_iff.mp h'
  rw [Loop.rounds_unique hp hp']

/-- Memory that holds nothing. -/
def cleared : Memory where
  buff := List.replicate maxline nul
  behind := [nul]
  size := List.length_replicate
  ends := List.mem_singleton_self nul

/-- What arrives behind the header is a front of the C string and its
NUL. -/
theorem put_within {header text file : Str} {accepts : Nat}
    (h : (header ++ text ++ [nul]).take accepts = header ++ file) :
    file <+: text ++ [nul]
      ∧ min accepts (header.length + text.length + 1)
        = header.length + file.length := by
  constructor
  · have hfront := List.take_prefix accepts (header ++ text ++ [nul])
    rw [h, List.append_assoc] at hfront
    exact (List.prefix_append_right_inj header).mp hfront
  · have hlen := congrArg List.length h
    rw [List.length_take, List.length_append, List.length_append,
      List.length_append, List.length_singleton] at hlen
    exact hlen

theorem cut_replicate_nul (n : Nat) : cut (List.replicate n nul) = [] := by
  cases n with
  | zero => rfl
  | succ n =>
      rw [List.replicate_succ]
      exact cut_append_nul [] _

/-- What it takes: the file is read to its end, fits the array, and the
NUL written behind it does no harm. Either the socket stops before it,
or it is the file's own last byte. -/
def DefaultFits {file : Str} (s : Streamed file) (headerBuff : Str)
    (accepts : Nat) : Prop :=
  s.ending = .endOfFile ∧ file.length ≤ maxline
    ∧ ((nul ∉ file ∧ accepts = (cut headerBuff).length + file.length)
      ∨ (cut headerBuff).length + file.length ≤ accepts
        ∧ ∃ text, nul ∉ text ∧ file = text ++ [nul])

/-- A file that arrives through cleared memory. -/
theorem fits_of_cleared {file : Str} {s : Streamed file} {headerBuff : Str}
    {accepts : Nat} (h : DefaultWhole s headerBuff accepts) :
    DefaultFits s headerBuff accepts := by
  obtain ⟨n, hn⟩ := h cleared
  cases hending : s.ending with
  | readError =>
      exfalso
      rw [hending] at hn
      obtain ⟨p, hp, -⟩ := Option.map_eq_some_iff.mp hn
      exact page_not_ends_of_readError s.content cleared.size ⟨n, _, hp⟩
  | endOfFile =>
      obtain ⟨m, f, b, hm, hlen, hshort, hone⟩ :=
        rounds_of_file s.content cleared.size
      rw [hending] at hn
      have hput := Except.ok.inj (defaultResponse_unique
        (defaultResponse_of_rounds hm cleared.ends headerBuff accepts) hn)
      have hbehind : cut (b ++ cleared.behind) = cut b := cut_append_nul b []
      rw [s.whole hending] at hshort hone
      dsimp only at hput
      rw [hbehind] at hput
      obtain ⟨hfront, hmin⟩ := put_within hput
      have hcut := length_cut_le b
      rcases Nat.lt_or_ge maxline file.length with hlong | hfits
      · -- the byte that is over has come to stand at the front
        exfalso
        have hle := hfront.length_le
        rw [List.length_append, List.length_singleton] at hle
        have hfile : file = cut b ++ [nul] := hfront.eq_of_length (by
          rw [List.length_append, List.length_singleton]
          omega)
        have hhead := hone (by omega)
        rw [hfile, List.getLast?_concat] at hhead
        obtain ⟨rest, hb⟩ := List.head?_eq_some_iff.mp hhead
        have hnone : cut b = [] := by
          rw [hb]
          exact cut_append_nul [] rest
        rw [hnone] at hle
        have hmax : 1 < maxline := by decide
        rw [List.length_nil] at hle
        omega
      · refine ⟨hending, hfits, ?_⟩
        have hb := hshort hfits
        have hclear : cleared.buff.drop file.length
            = List.replicate (maxline - file.length) nul :=
          List.drop_replicate
        rw [hclear] at hb
        by_cases hnul : nul ∈ file
        · right
          rw [hb, cut_append_of_mem hnul] at hfront hmin
          rcases List.prefix_concat_iff.mp hfront with hfile | hin
          · refine ⟨by omega, cut file, nul_notMem_cut file, hfile⟩
          · exact absurd (hin.subset hnul) (nul_notMem_cut file)
        · left
          rw [hb, cut_append hnul, cut_replicate_nul, List.append_nil] at hmin
          exact ⟨hnul, by omega⟩

theorem default_whole_iff {file : Str} (s : Streamed file) (headerBuff : Str)
    (accepts : Nat) :
    DefaultWhole s headerBuff accepts ↔ DefaultFits s headerBuff accepts := by
  constructor
  · exact fits_of_cleared
  · intro h m
    obtain ⟨hending, hfits, hcase⟩ := h
    obtain ⟨n, f, b, hn, -, hshort, -⟩ := rounds_of_file s.content m.size
    have hput := defaultResponse_of_rounds hn m.ends headerBuff accepts
    dsimp only at hput
    rw [s.whole hending] at hshort
    refine ⟨n, ?_⟩
    rw [hending, hput, hshort hfits]
    congr 2
    rcases hcase with ⟨hnul, rfl⟩ | ⟨haccepts, text, hnul, rfl⟩
    · -- whatever is read on behind the file, the socket stops at its end
      rw [List.append_assoc file, cut_append hnul, ← List.append_assoc,
        List.append_assoc _ _ [nul], ← List.length_append, List.take_left]
    · have hmem : nul ∈ text ++ [nul] := by simp
      rw [List.append_assoc (text ++ [nul]), cut_append_of_mem hmem,
        cut_append_nul, cut_of_nulFree hnul, List.append_assoc]
      apply List.take_of_length_le
      rw [List.length_append]
      exact haccepts

/-- Which pages arrive whole, for either response. -/
theorem delivered_iff (file : FileName) (time : Stamp) (pagesPath : Str)
    (fs : FileSystem) (d : Descriptors) (headerBuff : Nat → Str)
    (accepts : Nat) (r : GetResponse)
    (hserved : Served (r.tryOpen pagesPath fs).2.responseStatus)
    {page : Str} (s : Streamed page) (defaultBuff : Str)
    (defaultAccepts : Nat) :
    (GetWhole file time pagesPath fs d headerBuff accepts r
        ↔ GetFits pagesPath fs d headerBuff accepts r)
      ∧ (DefaultWhole s defaultBuff defaultAccepts
        ↔ DefaultFits s defaultBuff defaultAccepts) :=
  ⟨get_whole_iff file time pagesPath fs d headerBuff accepts r hserved,
    default_whole_iff s defaultBuff defaultAccepts⟩

/-- A page of two bytes, read in two calls, on a socket that takes all of
it; and one of one byte and a NUL. -/
theorem delivered_iff_hi : ∃ (d : Descriptors) (s : Streamed [1, nul]),
    d.file 3 = bytes "hi"
      ∧ GetWhole serverCpp epoch (bytes "www/") (fun _ _ => (3, .other)) d
        (fun _ => bytes "HTTP/1.1 200 OK\r\n\r\n") 4096
        ⟨bytes "www/index.html", 0, 0, []⟩
      ∧ DefaultWhole s (bytes "HTTP/1.1 500 Error\r\n\r\n") 4096 := by
  have hdelivered := delivered_iff serverCpp epoch (bytes "www/")
    (fun _ _ => (3, .other))
    ⟨fun _ => bytes "hi", fun _ => ⟨[bytes "h", bytes "i"], by decide,
      by decide, List.prefix_refl _⟩⟩
    (fun _ => bytes "HTTP/1.1 200 OK\r\n\r\n") 4096
    ⟨bytes "www/index.html", 0, 0, []⟩ (.inl rfl)
    (⟨[1, nul], .endOfFile, List.prefix_refl _, fun _ => rfl⟩ :
      Streamed [1, nul]) (bytes "HTTP/1.1 500 Error\r\n\r\n") 4096
  refine ⟨_, _, rfl, hdelivered.1.mpr ?_, hdelivered.2.mpr ?_⟩
  · exact ⟨by decide, by decide, by decide, rfl, by decide⟩
  · exact ⟨rfl, by decide, .inr ⟨by decide, [1], by decide, rfl⟩⟩

/-- A socket that takes all of a page but its last byte, a page whose name
the log takes for a format, and a socket that takes all that the other
response writes. -/
theorem pages_not_whole :
    (∃ d : Descriptors, d.file 3 = bytes "hi"
      ∧ GetResponse.written serverCpp epoch (bytes "www/")
          (fun _ _ => (3, .other)) d
          (fun _ => .ok (bytes "HTTP/1.1 200 OK\r\n\r\n")) 20
          ⟨bytes "www/index.html", 0, 0, []⟩
        = .ok (bytes "HTTP/1.1 200 OK\r\n\r\nh")
      ∧ ∀ accepts, ¬ GetWhole serverCpp epoch (bytes "www/")
          (fun _ _ => (3, .other)) d
          (fun _ => bytes "HTTP/1.1 200 OK\r\n\r\n") accepts
          ⟨bytes "www/ab%s", 0, 0, []⟩)
    ∧ ∃ s : Streamed (bytes "hi"), s.content = bytes "hi"
      ∧ ¬ DefaultWhole s (bytes "HTTP/1.1 500 Error\r\n\r\n") 4096 := by
  constructor
  · refine ⟨⟨fun _ => bytes "hi",
      fun _ => ⟨[bytes "h", bytes "i"], ?_, ?_, ?_⟩⟩, rfl, ?_, ?_⟩
    · decide
    · decide
    · exact List.prefix_refl _
    · refine (written_ok_iff serverCpp epoch _ _ _ _ _ rfl).mpr ?_
      exact ⟨by decide, by decide, _, rfl, bytes "hi", by decide, by decide⟩
    · intro accepts
      rw [get_whole_iff serverCpp epoch _ _ _ _ accepts _ (.inl rfl)]
      intro h
      have hliteral := h.2.1
      revert hliteral
      decide
  · refine ⟨⟨bytes "hi", .endOfFile, List.prefix_refl _, fun _ => rfl⟩, rfl, ?_⟩
    rw [default_whole_iff]
    intro h
    rcases h.2.2 with ⟨-, haccepts⟩ | ⟨-, text, -, htext⟩
    · revert haccepts
      decide
    · have hlast := congrArg List.getLast? htext
      rw [List.getLast?_concat] at hlast
      revert hlast
      decide

end TrashyServer.Server
