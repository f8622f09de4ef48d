/-
What each message comes to.

Most of what is logged cannot go wrong: its arguments are the compiler's
name of the file, line numbers and names of the source's own
(`logged_of_expands`). Three messages hand over something else. A GET
logs what it takes for the suffix of its route, and the route itself,
each as the argument of a `%s`, and the loop of `logging` reads on in
both of them (Log/Proofs/Literal.lean); and the request parser hands over
an object where a text is meant. Of these it is the text that is found
which decides (`logged_type_iff`, `logged_sent_iff`,
`logged_parser_iff`).

Messages in a row are printed exactly if each of them is
(`printed_ok_iff`).
-/
import TrashyServer.Log.Proofs.Literal
import TrashyServer.Server.Logs
import TrashyServer.Tool.Proofs.Construct

namespace TrashyServer.Server

open Log (CStr Arg Literal Format Slot percent plainText)
open Tool

-- ================================================================ one line

/-- The call prints a line. -/
def LogCall.Logged (time : Stamp) (l : LogCall) : Prop :=
  ∃ line, l.run time.text = .ok line

variable {time : Stamp}

/-- A call whose format is expanded. -/
theorem logged_iff {l : LogCall} {e : Log.Expansion}
    (h : Log.expand l.fmt.val 0 l.args [] = .ok e) :
    l.Logged time ↔ (l.level = .error → strlen e.fmtStr < 4058) := by
  have hline : l.Logged time ↔ _ := Log.logging_iff h time.text
  rw [time.length] at hline
  refine hline.trans (forall_congr' fun _ => ?_)
  omega

/-- A message without arguments. -/
theorem logged_plain {level : Log.Level} {fmt : CStr}
    (hplain : percent ∉ fmt.val) (hshort : fmt.val.length < 4058) :
    (LogCall.plain level fmt).Logged time := by
  have hexpand : Log.expand fmt.val 0 [] [] = .ok ⟨fmt.val, [], []⟩ :=
    Log.expand_of_none [] [] List.drop_zero (Log.seek_of_plain hplain)
  refine (logged_iff hexpand).mpr fun _ => ?_
  exact Nat.lt_of_le_of_lt (length_cut_le _) hshort

/-- A call of another level than `ERROR` with plain arguments. -/
theorem logged_of_expands {l : LogCall} {f : Format} (hfmt : l.fmt.val = f.text)
    (hargs : l.args = f.args) (hlevel : l.level ≠ .error)
    (hfront : percent ∉ plainText f.front) (hslots : ∀ s ∈ f.slots, s.Plain) :
    l.Logged time := by
  have hexpand := Log.expands_of_plain hfront hslots
  unfold Format.Expands at hexpand
  rw [← hfmt, ← hargs] at hexpand
  exact (logged_iff hexpand).mpr fun h => absurd h hlevel

/-- A call with one argument, behind plain text and in front of some. -/
theorem logged_one_iff {l : LogCall} {s a r : Str}
    (hfmt : l.fmt.val = a ++ percent :: Log.letterS :: r)
    (hargs : l.args = [cStr s]) (ha : percent ∉ a ∧ nul ∉ a)
    (hr : percent ∉ r ∧ nul ∉ r)
    (hhead : ∀ d, r.head? = some d → d ≠ Log.letterS ∧ d ≠ Log.letterD) :
    l.Logged time
      ↔ Literal (cut s) ∧ (l.level = .error →
        a.length + (cut s).length + r.length < 4058) := by
  have hline : (∃ line, Log.logging time.text l.level l.fmt [cStr s] = .ok line)
      ↔ _ := Log.logging_one_iff hfmt ha hr hhead time.text
  rw [time.length] at hline
  unfold LogCall.Logged LogCall.run
  rw [hargs]
  refine hline.trans (and_congr_right fun _ => forall_congr' fun _ => ?_)
  dsimp only
  omega

/-- All of them are printed. -/
theorem printed_ok_iff {ls : List LogCall} :
    printed time.text ls = .ok () ↔ ∀ l ∈ ls, l.Logged time := by
  induction ls with
  | nil => exact iff_of_true rfl fun l hl => absurd hl List.not_mem_nil
  | cons l ls ih =>
      have hcons : printed time.text (l :: ls)
          = l.run time.text >>= fun _ => printed time.text ls := rfl
      rw [List.forall_mem_cons, ← ih, hcons]
      unfold LogCall.Logged
      cases l.run time.text with
      | error e =>
          refine iff_of_false (fun h => nomatch h) ?_
          intro h
          obtain ⟨⟨line, hline⟩, -⟩ := h
          cases hline
      | ok line =>
          have hline : ∃ text, (.ok line : Except Log.Misuse Str) = .ok text :=
            ⟨line, rfl⟩
          exact (and_iff_right hline).symm

-- =================================================== what cannot go wrong

/-- `try_open` logs texts of its own. -/
theorem logged_tryOpen (pagesPath : Str) (fs : FileSystem) (r : GetResponse) :
    ∀ l ∈ r.tryOpenLogs pagesPath fs, l.Logged time := by
  have hone : ∀ {l : LogCall}, l.Logged time → ∀ k ∈ [l], k.Logged time :=
    fun h k hk => List.mem_singleton.mp hk ▸ h
  have hnone : ∀ k ∈ ([] : List LogCall), k.Logged time :=
    fun k hk => absurd hk List.not_mem_nil
  unfold GetResponse.tryOpenLogs
  dsimp only
  split
  · exact hnone
  · split
    · exact hone (logged_plain (by decide) (by decide))
    · refine List.forall_mem_cons.mpr
        ⟨logged_plain (by decide) (by decide), ?_⟩
      split
      · exact hone (logged_plain (by decide) (by decide))
      · exact hnone
    · exact hnone
    · exact hone (logged_plain (by decide) (by decide))
    · exact hone (logged_plain (by decide) (by decide))
    · exact hone (logged_plain (by decide) (by decide))
    · exact hone (logged_plain (by decide) (by decide))
    · split
      · exact hone (logged_plain (by decide) (by decide))
      · exact hnone

theorem logged_suffix (str : Str) : ∀ l ∈ suffixLogs str, l.Logged time := by
  intro l hl
  unfold suffixLogs at hl
  split at hl
  · cases hl
  · dsimp only at hl
    split at hl
    · rw [List.mem_singleton.mp hl]
      exact logged_plain (by decide) (by decide)
    · cases hl

/-- A slot filled with the file's name. -/
theorem FileName.slot_plain (file : FileName) {behind : Str}
    (h : percent ∉ plainText (Log.plain behind)) :
    (⟨.string file.text, Log.plain behind⟩ : Slot).Plain := by
  refine ⟨trivial, ?_, ?_⟩
  · show 2 ≤ (file.text.val ++ _).length
    rw [List.length_append]
    exact Nat.le_add_right_of_le file.long
  · intro hmem
    exact (List.mem_append.mp hmem).elim file.plain h

theorem logged_tooBig (file : FileName) {line : Nat}
    (h : (⟨.int line, Log.plain (bytes ", The file too big")⟩ : Slot).Plain) :
    (tooBig file.text line).Logged time := by
  refine logged_of_expands (f := ⟨[], [⟨.string file.text, Log.plain (bytes ", ")⟩,
    ⟨.int line, Log.plain (bytes ", The file too big")⟩]⟩) rfl rfl ?_ ?_ ?_
  · exact fun hlevel => nomatch hlevel
  · exact List.not_mem_nil
  · exact List.forall_mem_cons.mpr ⟨file.slot_plain (by decide),
      List.forall_mem_singleton.mpr h⟩

/-- So does the reading of a page. -/
theorem logged_page (file : FileName) (responseStatus : Nat)
    (results : List Int) :
    ∀ l ∈ pageLogs file.text responseStatus results, l.Logged time := by
  have hbig : ∀ {line : Nat} {sums : List Int},
      (⟨.int line, Log.plain (bytes ", The file too big")⟩ : Slot).Plain →
      ∀ l ∈ sums.map fun _ => tooBig file.text line, l.Logged time := by
    intro line sums hline l hl
    obtain ⟨_, -, rfl⟩ := List.mem_map.mp hl
    exact logged_tooBig file hline
  unfold pageLogs
  dsimp only
  split
  · exact hbig ⟨by decide, by decide, by decide⟩
  · exact hbig ⟨by decide, by decide, by decide⟩
  · exact hbig ⟨by decide, by decide, by decide⟩
  · exact List.forall_mem_singleton.mpr (logged_plain (by decide) (by decide))

/-- The default response names a file of the source's own, -/
theorem logged_default (file : FileName) (zero : Bool) (index : FileBehaviour) :
    ∀ l ∈ defaultLogs file.text zero index, l.Logged time := by
  have hconst : ∀ {arg : Arg} {behind : Str},
      (⟨arg, Log.plain behind⟩ : Slot).Plain →
      ∀ s ∈ [(⟨arg, Log.plain behind⟩ : Slot)], s.Plain :=
    fun h => List.forall_mem_singleton.mpr h
  unfold defaultLogs
  dsimp only
  intro l hl
  rcases List.mem_append.mp hl with hopen | hsent
  · cases index with
    | openFails =>
        rw [List.mem_singleton.mp hopen]
        refine logged_of_expands
          (f := ⟨[], [⟨.string file.text, Log.plain (bytes ", ")⟩,
            ⟨.int 179, Log.plain (bytes ", ")⟩,
            ⟨cStr (bytes "can not open file"), Log.plain (bytes ", ")⟩,
            ⟨cStr (bytes "index.html"), Log.plain []⟩]⟩) rfl rfl ?_ ?_ ?_
        · exact fun hlevel => nomatch hlevel
        · exact List.not_mem_nil
        · exact List.forall_mem_cons.mpr ⟨file.slot_plain (by decide),
            List.forall_mem_cons.mpr ⟨⟨by decide, by decide, by decide⟩,
            List.forall_mem_cons.mpr ⟨⟨trivial, by decide, by decide⟩,
            hconst ⟨trivial, by decide, by decide⟩⟩⟩⟩
    | opens content ending => cases hopen
  · rw [List.mem_singleton.mp hsent]
    cases zero with
    | true =>
        refine logged_of_expands
          (f := ⟨Log.plain (bytes "IN "), [⟨.string file.text, Log.plain (bytes ", ")⟩,
            ⟨.int 193, Log.plain (bytes ". from ")⟩,
            ⟨cStr (bytes "index.html"),
              Log.plain (bytes " can NOT send any pages.")⟩]⟩) rfl rfl ?_ ?_ ?_
        · exact fun hlevel => nomatch hlevel
        · show percent ∉ plainText (Log.plain (bytes "IN "))
          decide
        · exact List.forall_mem_cons.mpr ⟨file.slot_plain (by decide),
            List.forall_mem_cons.mpr ⟨⟨by decide, by decide, by decide⟩,
            hconst ⟨trivial, by decide, by decide⟩⟩⟩
    | false =>
        refine logged_of_expands (f := ⟨[], [⟨cStr (bytes "index.html"),
          Log.plain (bytes " send fin.")⟩]⟩) rfl rfl ?_ ?_ ?_
        · exact fun hlevel => nomatch hlevel
        · exact List.not_mem_nil
        · exact hconst ⟨trivial, by decide, by decide⟩

/-- and a HEAD none. -/
theorem logged_head (zero : Bool) : ∀ l ∈ headLogs zero, l.Logged time := by
  intro l hl
  rw [List.mem_singleton.mp hl]
  cases zero with
  | true => exact logged_plain (by decide) (by decide)
  | false => exact logged_plain (by decide) (by decide)

-- =============================================================== the parser

/-- The messages of a query are texts of the source's own, -/
theorem logged_query (route : Str) : ∀ l ∈ queryLogs route, l.Logged time := by
  have hmany : (LogCall.plain .warn
      ⟨bytes "Route (URI) has too many `?`", by decide⟩).Logged time :=
    logged_plain (by decide) (by decide)
  unfold queryLogs
  dsimp only
  split
  · exact fun l hl => absurd hl List.not_mem_nil
  · exact fun l hl => absurd hl List.not_mem_nil
  · exact List.forall_mem_singleton.mpr hmany
  · exact List.forall_mem_cons.mpr ⟨hmany,
      List.forall_mem_singleton.mpr (logged_plain (by decide) (by decide))⟩

/-- and a line of the request that is logged is printed exactly if the
object handed over is found to be a literal text. -/
theorem logged_attrib_iff (file : FileName) (object : CStr) (source : Str) :
    (∀ l ∈ attribLogs file.text object source, l.Logged time)
      ↔ (attribFormat source ≠ none → Literal object.val) := by
  have hobject : ∀ (line : Nat) (fmt : CStr) (front behind : Str),
      fmt.val = Log.sources ([⟨.string file.text, Log.plain front⟩,
        ⟨.int line, Log.plain behind⟩] ++ [⟨.string object, []⟩]) →
      (⟨.string file.text, Log.plain front⟩ : Slot).Plain →
      (⟨.int line, Log.plain behind⟩ : Slot).Plain →
      ((⟨.debug, fmt, [.string file.text, .int line, .string object]⟩ :
        LogCall).Logged time ↔ Literal object.val) := by
    intro line fmt front behind hfmt hfirst hsecond
    have hdebug : Log.Level.debug ≠ .error := fun h => nomatch h
    exact Log.logging_last_iff hfmt (List.forall_mem_cons.mpr
      ⟨hfirst, List.forall_mem_singleton.mpr hsecond⟩) hdebug time.text
  have hone : ∀ {line : Nat} {fmt : CStr},
      attribFormat source = some (line, fmt) →
      ((⟨.debug, fmt, [.string file.text, .int line, .string object]⟩ :
        LogCall).Logged time ↔ Literal object.val) →
      ((∀ l ∈ attribLogs file.text object source, l.Logged time)
        ↔ (attribFormat source ≠ none → Literal object.val)) := by
    intro line fmt hformat hiff
    unfold attribLogs
    rw [hformat, imp_iff_right (Option.some_ne_none _), ← hiff]
    exact List.forall_mem_singleton
  have hcases : attribFormat source = none
      ∨ attribFormat source = some (117, ⟨bytes "%s %d %s", by decide⟩)
      ∨ attribFormat source = some (121, ⟨bytes "%s, %d, %s", by decide⟩) := by
    unfold attribFormat
    repeat' split
    all_goals simp
  rcases hcases with hnone | hlength | htype
  · unfold attribLogs
    rw [hnone]
    exact iff_of_true (fun l hl => absurd hl List.not_mem_nil)
      fun hno => absurd rfl hno
  · exact hone hlength (hobject _ _ (bytes " ") (bytes " ") rfl
      (file.slot_plain (by decide)) ⟨by decide, by decide, by decide⟩)
  · exact hone htype (hobject _ _ (bytes ", ") (bytes ", ") rfl
      (file.slot_plain (by decide)) ⟨by decide, by decide, by decide⟩)

/-- What the parser logs of the request in `mem`. -/
theorem logged_parser_iff (file : FileName) (object : Nat → CStr)
    {p : HttpParse} {text : Str} (h : p.originData = text) :
    (∀ l ∈ parserLogs file.text object p, l.Logged time)
      ↔ ∀ i line, (lines text)[i]? = some line → attribFormat line ≠ none →
        Literal (object i).val := by
  have hlines : split_ [] p.originData crlf = .ok (lines text) := by
    rw [h]
    exact split_eq (List.cons_ne_nil _ _) [] _
  unfold parserLogs
  rw [hlines]
  dsimp only
  rw [List.forall_mem_append, and_iff_right (logged_query p.route)]
  constructor
  · intro hall i line hline
    rw [← logged_attrib_iff file (object i) line]
    intro l hl
    exact hall l (List.mem_flatMap.mpr
      ⟨(line, i), List.mem_zipIdx_iff_getElem?.mpr hline, hl⟩)
  · intro hall l hl
    obtain ⟨⟨line, i⟩, hmem, hl⟩ := List.mem_flatMap.mp hl
    exact (logged_attrib_iff file (object i) line).mpr
      (hall i line (List.mem_zipIdx_iff_getElem?.mp hmem)) l hl

-- ==================================================== what a client has sent

/-- Text behind a space makes no directive. -/
theorem head_space (r : Str) : ∀ d, (Config.space :: r).head? = some d →
    d ≠ Log.letterS ∧ d ≠ Log.letterD := by
  intro d hd
  cases hd
  decide

/-- `logging_char_buff` has room for the message: it is made of the route
and nothing else, and is short enough. -/
theorem logNotSent_fits_iff (time : Log.CStr) (r : GetResponse) :
    (∃ line, r.logNotSent time = .ok line)
      ↔ Literal (cut r.route) ∧ strlen r.route + time.val.length + 43 < 4096 := by
  have hline : (∃ line, r.logNotSent time = .ok line) ↔ _ :=
    Log.logging_one_iff (a := bytes "From ") (r := bytes " can NOT send any pages.")
      rfl ⟨by decide, by decide⟩ ⟨by decide, by decide⟩ (head_space _) time
  have hfirst : (bytes "From ").length = 5 := rfl
  have hlast : (bytes " can NOT send any pages.").length = 24 := rfl
  rw [hfirst, hlast] at hline
  refine hline.trans (and_congr_right fun _ => (imp_iff_right rfl).trans ?_)
  unfold strlen
  dsimp only
  omega

/-- The route of a page that has been written. -/
theorem logged_sent_iff (zero : Bool) (route : Str) :
    (sentLog zero route).Logged time
      ↔ Literal (cut route) ∧ (zero = true → (cut route).length < 4029) := by
  cases zero with
  | true =>
      have hline : (sentLog true route).Logged time ↔ _ :=
        logNotSent_fits_iff time.text ⟨route, 0, 0, []⟩
      rw [time.length] at hline
      refine hline.trans (and_congr_right fun _ => ?_)
      rw [imp_iff_right rfl]
      unfold strlen
      dsimp only
      omega
  | false =>
      unfold sentLog
      rw [if_neg Bool.false_ne_true, logged_one_iff (a := bytes "From ")
        (r := bytes " pages send fin.") rfl rfl ⟨by decide, by decide⟩
        ⟨by decide, by decide⟩ (head_space _)]
      exact and_congr_right fun _ =>
        iff_of_true (fun h => nomatch h) (fun h => nomatch h)

/-- What is taken for its suffix. -/
theorem logged_type_iff (fileT : Str) :
    (typeLog fileT).Logged time ↔ Literal (cut fileT) := by
  rw [logged_one_iff (a := bytes "file type is ") (r := []) rfl rfl
    ⟨by decide, by decide⟩ ⟨List.not_mem_nil, List.not_mem_nil⟩
    (fun d hd => nomatch hd)]
  exact and_iff_left fun h => nomatch h

/-- The calls of a GET that comes to its end. -/
theorem logged_get_iff (file : FileName) (zero : Bool) (pagesPath : Str)
    (fs : FileSystem) (d : Descriptors) {r : GetResponse} {fileT : Str}
    (h : getTextFileT r.route = .ok fileT) :
    (∀ l ∈ r.logs file.text zero pagesPath fs d, l.Logged time)
      ↔ Literal (cut fileT) ∧ Literal (cut r.route)
        ∧ (zero = true → (cut r.route).length < 4029) := by
  unfold GetResponse.logs
  dsimp only
  rw [h, List.forall_mem_append, List.forall_mem_append]
  dsimp only
  rw [List.forall_mem_append, List.forall_mem_cons, List.forall_mem_singleton,
    logged_type_iff, logged_sent_iff]
  constructor
  · intro hall
    exact ⟨hall.2.1.1, hall.2.2⟩
  · intro hboth
    exact ⟨⟨logged_tryOpen pagesPath fs r, logged_suffix r.route⟩,
      ⟨hboth.1, logged_page file _ _⟩, hboth.2⟩

end TrashyServer.Server
