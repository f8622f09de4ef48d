/-
Whether the two loops that read the configuration file end.

Both go on until `eof()`, and a stream that is not good no longer moves:
once it is in that state without eofbit, `getline` leaves
`tmp_file_buff` as it was and `read` stores nothing, and the next round
finds the loop where it was (`Stuck`, `not_ends_of_stuck`). The loop of
`load_file_to` starts there when the open fails and comes there on a
read error, unless a line makes it throw first; the line that is
processed again and again cannot, having passed once (`kept_clean`). The
loop of `MD5::update(std::fstream &)` is guarded against a failed open
and comes there on a read error.

The end of the file is met after as many rounds as there are lines or
pieces; those runs are `rounds_of_clean`, `rounds_of_faulty` and
`Digest.rounds_of_file`.
-/
import TrashyServer.Config.Proofs.Load
import TrashyServer.Digest.Proofs.Feed

namespace TrashyServer.Config

open Digest (Md5 Reading Transformers)
open FileStream (lines)
open Server (maxline)

-- ============================================================ a line, twice

theorem cut_removeSpace (l : Str) :
    cut (removeSpace l) = removeSpace (cut l) := by
  unfold cut removeSpace
  induction l with
  | nil => rfl
  | cons b l ih =>
      by_cases hspace : b = space
      · have hnul : space ≠ nul := by decide
        rw [List.filter_cons_of_neg (by simpa using hspace), ih, hspace,
          List.takeWhile_cons_of_pos (by simpa using hnul),
          List.filter_cons_of_neg (by simp)]
      · rw [List.filter_cons_of_pos (by simpa using hspace)]
        by_cases hnul : b = nul
        · rw [List.takeWhile_cons_of_neg (by simpa using hnul),
            List.takeWhile_cons_of_neg (by simpa using hnul), List.filter_nil]
        · rw [List.takeWhile_cons_of_pos (by simpa using hnul),
            List.takeWhile_cons_of_pos (by simpa using hnul), ih,
            List.filter_cons_of_pos (by simpa using hspace)]

theorem removeSpace_removeSpace (l : Str) :
    removeSpace (removeSpace l) = removeSpace l := by
  unfold removeSpace
  rw [List.filter_filter]
  simp

/-- What stands before a comment has no comment of its own. -/
theorem hash_notMem_cut (l : Str) :
    hash ∉ cut (removeSpace (uncommented l)) := by
  intro hmem
  rw [cut_removeSpace] at hmem
  have hcut : hash ∈ cut (uncommented l) := List.mem_of_mem_filter hmem
  unfold uncommented at hcut
  split at hcut
  · have hhash := (List.takeWhile_prefix (· ≠ nul)).subset hcut
    simpa using List.mem_takeWhile_imp hhash
  · next hno => exact hno hcut

theorem uncommented_removeSpace (l : Str) :
    uncommented (removeSpace (uncommented l)) = removeSpace (uncommented l) :=
  if_neg (hash_notMem_cut l)

/-- A clean line that is processed again is clean and stays as it is. -/
theorem kept_clean {l : Str} (h : ¬ Faulty l) :
    ¬ Faulty (kept l) ∧ kept (kept l) = kept l := by
  unfold kept
  by_cases hun : uncommented l = []
  · rw [if_pos hun, if_pos hun]
    exact ⟨h, rfl⟩
  · have hagain := uncommented_removeSpace l
    rw [if_neg hun, hagain, removeSpace_removeSpace, ite_self]
    refine ⟨?_, rfl⟩
    intro hfaulty
    apply h
    rcases hfaulty with (⟨hmem, -⟩ | ⟨hne, hlong⟩) | ⟨hne, hspaces⟩
    · exact absurd hmem (hash_notMem_cut l)
    · rw [hagain, removeSpace_removeSpace] at hlong
      exact .inl (.inr ⟨hun, hlong⟩)
    · rw [hagain] at hne hspaces
      rw [← removeSpace_eq_nil_iff, removeSpace_removeSpace] at hspaces
      exact absurd hspaces hne

-- ========================================================== load_file_to

/-- The loop cannot get on: the stream is not good and not at its end,
and the line that is left over passes. -/
structure Stuck (s : Load) : Prop where
  eof : s.fileLoad.eof = false
  good : s.fileLoad.good = false
  clean : ¬ Faulty s.tmpFileBuff
  kept : kept s.tmpFileBuff = s.tmpFileBuff

theorem not_ends_of_stuck {s : Load} (h : Stuck s) :
    ¬ Loop.Ends Load.more Load.body s := by
  refine Loop.not_ends_of_invariant (I := Stuck) ?_ ?_ h
  · intro s hs
    unfold Load.more
    rw [hs.eof]
    rfl
  · intro s hs
    have hbody : s.body = .ok ⟨{ s.fileLoad with fail := true }, s.tmpFileBuff,
        s.tmpPathKV ++ (pairOf s.tmpFileBuff).toList⟩ := by
      unfold Load.body
      rw [FileStream.getline_of_not_good hs.good]
      dsimp only
      rw [loadLine_of_clean hs.clean, ok_bind, hs.kept]
    refine ⟨_, hbody, hs.eof, ?_, hs.clean, hs.kept⟩
    simp [FileStream.good]

/-- A stream that did not open is stuck from the start. -/
theorem stuck_openFails : Stuck (Load.start .openFails) := by
  refine ⟨rfl, rfl, ?_, rfl⟩
  intro hfaulty
  rcases hfaulty with (⟨hmem, -⟩ | ⟨hne, -⟩) | ⟨hne, -⟩
  · cases hmem
  · exact hne rfl
  · exact hne rfl

/-- A read error behind clean lines. -/
theorem not_ends_of_readError (text : Str) :
    ∀ (buff : Str) (kvs : List (Str × Str)),
      (∀ l ∈ lines text, ¬ Faulty l) →
      ¬ Loop.Ends Load.more Load.body ⟨.fresh text .readError, buff, kvs⟩ := by
  induction text using text_induction with
  | last l hl =>
      intro buff kvs hclean
      rw [lines_last hl] at hclean
      have hfirst := hclean l (List.mem_singleton_self l)
      rw [Loop.ends_iff_of_ok rfl (body_of_last hl hfirst .readError buff kvs)]
      obtain ⟨hagain, hkept⟩ := kept_clean hfirst
      apply not_ends_of_stuck
      exact ⟨rfl, by simp [FileStream.runOut, FileStream.fresh, FileStream.good],
        hagain, hkept⟩
  | line l rest hl ih =>
      intro buff kvs hclean
      rw [lines_of_line hl, List.forall_mem_cons] at hclean
      rw [Loop.ends_iff_of_ok rfl
        (body_of_line hl hclean.1 rest .readError buff kvs)]
      exact ih _ _ hclean.2

/-- Where the line loop ends: the open succeeds, and either the end of
the file stands behind the content or a line makes the loop throw. -/
def LoadEnds : FileBehaviour → Prop
  | .openFails => False
  | .opens text ending => ending = .endOfFile ∨ ∃ l ∈ lines text, Faulty l

theorem load_ends_iff (file : FileBehaviour) :
    Loop.Ends Load.more Load.body (Load.start file) ↔ LoadEnds file := by
  cases file with
  | openFails => exact iff_of_false (not_ends_of_stuck stuck_openFails) id
  | opens text ending =>
      by_cases hfaulty : ∃ l ∈ lines text, Faulty l
      · obtain ⟨n, e, he⟩ := rounds_of_faulty text ending [] [] hfaulty
        exact iff_of_true ⟨n, _, he⟩ (.inr hfaulty)
      · have hclean : ∀ l ∈ lines text, ¬ Faulty l := fun l hl hf =>
          hfaulty ⟨l, hl, hf⟩
        cases ending with
        | endOfFile =>
            obtain ⟨n, s, hs, -⟩ := rounds_of_clean text [] [] hclean
            exact iff_of_true ⟨n, _, hs⟩ (.inl rfl)
        | readError =>
            refine iff_of_false (not_ends_of_readError text [] [] hclean) ?_
            intro h
            rcases h with h | h
            · cases h
            · exact hfaulty h

-- ==================================================== update(std::fstream &)

variable {T : Transformers}

/-- A stream that is not good and not at its end is read for ever. -/
theorem reading_not_ends {r : Reading} (heof : r.inFile.eof = false)
    (hgood : r.inFile.good = false) :
    ¬ Loop.Ends Reading.more (Reading.body T) r := by
  apply FileStream.not_ends Reading.inFile (fun _ => rfl) _ heof hgood
  intro r hr
  refine ⟨⟨{ r.inFile with fail := true }, r.md5⟩, ?_, rfl⟩
  unfold Reading.body
  rw [FileStream.read_of_not_good hr]
  rfl

/-- A read error behind any content. -/
theorem reading_not_ends_of_readError (content : Str) :
    ∀ s : Md5, ¬ Loop.Ends Reading.more (Reading.body T)
      ⟨.fresh content .readError, s⟩ := by
  have hpos : 0 < 1024 := Nat.succ_pos _
  induction content using Blocks.block_induction hpos with
  | short content h =>
      intro s
      rw [Loop.ends_iff_of_ok rfl (Digest.body_of_lt h .readError s)]
      exact reading_not_ends rfl rfl
  | block content h ih =>
      intro s
      rw [Loop.ends_iff_of_ok rfl (Digest.body_of_le h .readError s)]
      exact ih _

/-- Where the block loop ends: nothing is read, or the end of the file is
met. -/
def BlocksEnd : FileBehaviour → Prop
  | .openFails => True
  | .opens _ ending => ending = .endOfFile

theorem blocks_end_iff (s : Md5) (file : FileBehaviour) :
    (∃ n r, s.updateFile T n (.new file) = some r) ↔ BlocksEnd file := by
  cases file with
  | openFails => exact iff_of_true ⟨0, _, rfl⟩ trivial
  | opens content ending =>
      have hloop : (∃ n r, s.updateFile T n (.fresh content ending) = some r)
          ↔ Loop.Ends Reading.more (Reading.body T)
            ⟨.fresh content ending, s⟩ := by
        constructor
        · intro h
          obtain ⟨n, r, hr⟩ := h
          obtain ⟨r', hr', -⟩ := Option.map_eq_some_iff.mp hr
          exact ⟨n, r', hr'⟩
        · intro h
          obtain ⟨n, r, hr⟩ := h
          exact ⟨n, _, Option.map_eq_some_iff.mpr ⟨r, hr, rfl⟩⟩
      show (∃ n r, s.updateFile T n (.fresh content ending) = some r) ↔ _
      rw [hloop]
      cases ending with
      | endOfFile =>
          obtain ⟨n, f, hn⟩ := Digest.rounds_of_file (T := T) content s
          exact iff_of_true ⟨n, _, hn⟩ rfl
      | readError =>
          refine iff_of_false (reading_not_ends_of_readError content s) ?_
          intro h
          cases h

-- ================================================================ together

/-- Reading the configuration ends exactly when both loops do: for the
stream the line loop reads, when it opens and either has its end of file
or makes a line throw; for the stream the block loop reads, unless it
opens and has a read error. -/
theorem reading_ends_iff (T : Transformers) (s : Md5)
    (file file' : FileBehaviour) :
    (Loop.Ends Load.more Load.body (Load.start file)
        ∧ ∃ n r, s.updateFile T n (.new file') = some r)
      ↔ LoadEnds file ∧ BlocksEnd file' :=
  and_congr (load_ends_iff file) (blocks_end_iff s file')

/-- A file that cannot be opened is read for ever. -/
theorem missing_file_not_ends :
    ¬ (Loop.Ends Load.more Load.body (Load.start .openFails)
      ∧ ∃ n r, (Digest.filled 0).updateFile (fun w _ => w) n (.new .openFails)
        = some r) := by
  intro h
  exact not_ends_of_stuck stuck_openFails h.1

end TrashyServer.Config
