/-
`std::fstream` opened for reading, as the server uses it.

A stream is the bytes still to come, what stands behind them, and its
three state bits. Opening fails or succeeds (`FileBehaviour`); a failed
open sets failbit. Behind the bytes comes the end of the file, which
sets eofbit, or a read that fails, which sets badbit and not eofbit.
On a stream that is not good `getline` and `read` take nothing, leave
what they were to fill as it was, and set failbit.

`FileStream.lines` is what a stream is to `getline`: the pieces between
line feeds, the last of which may be empty.
-/
import TrashyServer.Lib.Loop
import TrashyServer.Str

namespace TrashyServer

-- ============================================================ the streams

/-- What stands behind the bytes of a file. -/
inductive Ending
  | endOfFile
  | readError
deriving DecidableEq

/-- How a file behaves towards the stream opened on it. -/
inductive FileBehaviour
  | openFails
  | opens (content : Str) (ending : Ending)
deriving DecidableEq

/-- `std::fstream`. -/
structure FileStream where
  isOpen : Bool
  rest : Str
  ending : Ending
  eof : Bool
  fail : Bool
  bad : Bool
deriving DecidableEq

/-- A stream that nothing has happened to yet. -/
def FileStream.fresh (rest : Str) (ending : Ending) : FileStream :=
  ⟨true, rest, ending, false, false, false⟩

/-- `std::fstream file(path, std::ios::in)`. -/
def FileStream.new : FileBehaviour → FileStream
  | .openFails => ⟨false, [], .endOfFile, false, true, false⟩
  | .opens content ending => .fresh content ending

/-- `good()`. -/
def FileStream.good (f : FileStream) : Bool := !f.eof && !f.fail && !f.bad

/-- `!file`. -/
def FileStream.not (f : FileStream) : Bool := f.fail || f.bad

/-- All bytes taken and what stands behind them met; `short` is whether
fewer were there than the operation needs. -/
def FileStream.runOut (f : FileStream) (short : Bool) : FileStream :=
  match f.ending with
  | .endOfFile => { f with rest := [], eof := true, fail := short }
  | .readError => { f with rest := [], bad := true, fail := short }

/-- `std::getline(file, str)`: the stream and the string afterwards. -/
def FileStream.getline (f : FileStream) (str : Str) : FileStream × Str :=
  if f.good then
    if lf ∈ f.rest then
      ({ f with rest := (f.rest.dropWhile (· ≠ lf)).tail },
        f.rest.takeWhile (· ≠ lf))
    else (f.runOut f.rest.isEmpty, f.rest)
  else ({ f with fail := true }, str)

/-- `file.read(buffer, n)`: the stream and the bytes stored, whose
number is `gcount()`. -/
def FileStream.read (f : FileStream) (n : Nat) : FileStream × Str :=
  if f.good then
    if n ≤ f.rest.length then
      ({ f with rest := f.rest.drop n }, f.rest.take n)
    else (f.runOut (f.ending = .endOfFile), f.rest)
  else ({ f with fail := true }, [])

-- ================================================================ getline

theorem FileStream.good_fresh (rest : Str) (ending : Ending) :
    (FileStream.fresh rest ending).good = true := rfl

/-- A line that is not the last one. -/
theorem FileStream.getline_line {l : Str} (h : lf ∉ l) (rest : Str)
    (ending : Ending) (str : Str) :
    (FileStream.fresh (l ++ lf :: rest) ending).getline str
      = (.fresh rest ending, l) := by
  have hmem : lf ∈ l ++ lf :: rest := by simp
  unfold FileStream.getline
  rw [if_pos (good_fresh _ _)]
  unfold fresh
  dsimp only
  rw [if_pos hmem, takeWhile_at h, dropWhile_at h]
  rfl

/-- The last line. -/
theorem FileStream.getline_last {l : Str} (h : lf ∉ l) (ending : Ending)
    (str : Str) :
    (FileStream.fresh l ending).getline str
      = ((FileStream.fresh l ending).runOut l.isEmpty, l) := by
  unfold FileStream.getline
  rw [if_pos (good_fresh _ _)]
  exact if_neg h

/-- Behind the last line nothing more is taken. -/
theorem FileStream.getline_of_not_good {f : FileStream} (h : f.good = false)
    (str : Str) : f.getline str = ({ f with fail := true }, str) := by
  unfold FileStream.getline
  rw [if_neg]
  rw [h]
  exact Bool.false_ne_true

-- =================================================================== read

/-- A read of no more than what is there. -/
theorem FileStream.read_of_le {content : Str} {n : Nat}
    (h : n ≤ content.length) (ending : Ending) :
    (FileStream.fresh content ending).read n
      = (.fresh (content.drop n) ending, content.take n) := by
  unfold FileStream.read
  rw [if_pos (good_fresh _ _)]
  exact if_pos h

/-- A read that meets what stands behind the file. -/
theorem FileStream.read_of_lt {content : Str} {n : Nat}
    (h : content.length < n) (ending : Ending) :
    (FileStream.fresh content ending).read n
      = ((FileStream.fresh content ending).runOut (ending = .endOfFile),
        content) := by
  unfold FileStream.read
  rw [if_pos (good_fresh _ _)]
  exact if_neg (Nat.not_le.mpr h)

/-- A stream that is not good is not read. -/
theorem FileStream.read_of_not_good {f : FileStream} (h : f.good = false)
    (n : Nat) : f.read n = ({ f with fail := true }, []) := by
  unfold FileStream.read
  rw [if_neg]
  rw [h]
  exact Bool.false_ne_true

/-- A loop controlled by `eof()` goes on for ever on a stream that is not
good and not at its end, if its body does nothing to the stream but an
operation that such a stream refuses. -/
theorem FileStream.not_ends {σ : Type} {more : σ → Bool}
    {body : σ → Except Fault σ} (file : σ → FileStream)
    (hmore : ∀ s, more s = !(file s).eof)
    (hbody : ∀ s, (file s).good = false →
      ∃ s', body s = .ok s' ∧ file s' = { file s with fail := true })
    {s : σ} (heof : (file s).eof = false) (hgood : (file s).good = false) :
    ¬ Loop.Ends more body s := by
  refine Loop.not_ends_of_invariant
    (I := fun s => (file s).eof = false ∧ (file s).good = false) ?_ ?_
    ⟨heof, hgood⟩
  · intro s hs
    rw [hmore, hs.1]
    rfl
  · intro s hs
    obtain ⟨s', hs', hfile⟩ := hbody s hs.2
    refine ⟨s', hs', ?_⟩
    rw [hfile]
    exact ⟨hs.1, by simp [good]⟩

-- ================================================================== lines

/-- The lines of a text. -/
def FileStream.lines (text : Str) : List Str := text.splitOn lf

open FileStream (lines)

theorem lines_of_line {l : Str} (h : lf ∉ l) (rest : Str) :
    lines (l ++ lf :: rest) = l :: lines rest :=
  List.splitOn_append_cons_self_of_not_mem h rest

theorem lines_last {l : Str} (h : lf ∉ l) : lines l = [l] :=
  List.splitOn_eq_singleton h

/-- Induction over the lines of a text: a text is its own last line, or a
line and a text. -/
theorem text_induction {P : Str → Prop} (last : ∀ l, lf ∉ l → P l)
    (line : ∀ l rest, lf ∉ l → P rest → P (l ++ lf :: rest)) (text : Str) :
    P text := by
  induction hn : text.length using Nat.strong_induction_on
    generalizing text with
  | _ n ih =>
      by_cases h : lf ∈ text
      · obtain ⟨l, rest, rfl, hl⟩ := List.eq_append_cons_of_mem h
        rw [List.length_append, List.length_cons] at hn
        exact line l rest hl (ih rest.length (by omega) rest rfl)
      · exact last text h

end TrashyServer
