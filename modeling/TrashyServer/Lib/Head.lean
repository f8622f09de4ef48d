/-
Lines in front of a body: each ends in a mark of two elements, and an
empty one is the last.

`render` writes such a head and `read` takes it off again, line by line.
Nothing of the body is looked at: whatever stands behind a head of
non-empty lines without the mark's first element, `read` gives back the
lines and exactly that (`read_render`).
-/
import Mathlib.Data.List.Basic

namespace Head

universe u

variable {α : Type u} (x y : α)

/-- The lines, and an empty one behind them. -/
def render (ls : List (List α)) : List α :=
  (ls.flatMap fun l => l ++ [x, y]) ++ [x, y]

variable [DecidableEq α]

/-- The lines up to the first empty one, and what stands behind it;
`line` is what has been read of the first line so far. -/
def read (line : List α) : List α → Option (List (List α) × List α)
  | [] => none
  | [_] => none
  | c :: d :: s =>
      if c = x ∧ d = y then
        if line = [] then some ([], s)
        else (read [] s).map fun r => (line :: r.1, r.2)
      else read (line ++ [c]) (d :: s)

variable {x y}

/-- The end of the head. -/
theorem read_end (s : List α) : read x y [] (x :: y :: s) = some ([], s) := by
  unfold read
  rw [if_pos ⟨rfl, rfl⟩, if_pos rfl]

/-- One line is taken off, wherever the reader stands in it. -/
theorem read_line {l : List α} (h : x ∉ l) (s : List α) :
    ∀ line : List α, line ++ l ≠ [] →
      read x y line (l ++ x :: y :: s)
        = (read x y [] s).map fun r => ((line ++ l) :: r.1, r.2) := by
  induction l with
  | nil =>
      intro line hne
      rw [List.append_nil] at hne ⊢
      rw [List.nil_append, read, if_pos ⟨rfl, rfl⟩, if_neg hne]
  | cons c l ih =>
      intro line _
      have hc : ¬ c = x := by
        intro heq
        exact h (heq ▸ List.mem_cons_self ..)
      have hl : x ∉ l := fun hmem => h (List.mem_cons_of_mem _ hmem)
      have hnext : ∀ s' : List α, s' ≠ [] →
          read x y line (c :: s') = read x y (line ++ [c]) s' := by
        intro s' hs'
        cases s' with
        | nil => exact absurd rfl hs'
        | cons d s' => rw [read, if_neg fun hboth => hc hboth.1]
      rw [List.cons_append, hnext _ (by simp), ih hl (line ++ [c]) (by simp),
        List.append_assoc]
      rfl

/-- What was written is read, and the body is what was put behind it. -/
theorem read_render {ls : List (List α)} (h : ∀ l ∈ ls, l ≠ [] ∧ x ∉ l)
    (body : List α) : read x y [] (render x y ls ++ body) = some (ls, body) := by
  induction ls with
  | nil => exact read_end body
  | cons l ls ih =>
      obtain ⟨⟨hne, hx⟩, hls⟩ := List.forall_mem_cons.mp h
      have hsplit : render x y (l :: ls) ++ body
          = l ++ x :: y :: (render x y ls ++ body) := by
        unfold render
        simp
      rw [hsplit, read_line hx _ [] (by simpa using hne), ih hls]
      rfl

end Head
