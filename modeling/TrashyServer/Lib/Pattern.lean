/-
Searching a list for a pattern of single-element tests.

A pattern is a list of atoms, each admitting one element: a literal, or
anything a predicate lets through. This is the part of a regular
expression language that has no choice and no repetition, so matching
needs no backtracking: `here` matches at the front, `search` anywhere.
A pattern of literals is searched for like any list
(`search_lits`).
-/
import Mathlib.Data.List.Infix

namespace Pattern

universe u

/-- A test of one element. -/
inductive Atom (α : Type u)
  | lit (a : α)
  | sat (p : α → Bool)

variable {α : Type u} [DecidableEq α]

/-- Whether an atom admits an element. -/
def Atom.admits : Atom α → α → Bool
  | lit a, b => a = b
  | sat p, b => p b

/-- Whether a list starts with a match. -/
def here : List (Atom α) → List α → Bool
  | [], _ => true
  | _ :: _, [] => false
  | a :: p, b :: s => a.admits b && here p s

/-- Whether a list has a match anywhere. -/
def search (p : List (Atom α)) : List α → Bool
  | [] => here p []
  | b :: s => here p (b :: s) || search p s

/-- The pattern that matches one list only. -/
def lits (p : List α) : List (Atom α) := p.map .lit

theorem here_lits {p s : List α} : here (lits p) s = true ↔ p <+: s := by
  induction p generalizing s with
  | nil => simp [lits, here]
  | cons a p ih =>
      cases s with
      | nil => simp [lits, here]
      | cons b s =>
          rw [List.cons_prefix_cons, ← ih]
          simp [lits, here, Atom.admits]

/-- Searching for literals is looking for an occurrence. -/
theorem search_lits {p s : List α} : search (lits p) s = true ↔ p <:+: s := by
  induction s with
  | nil =>
      rw [search, here_lits]
      simp
  | cons b s ih =>
      rw [search, Bool.or_eq_true, here_lits, ih, List.infix_cons_iff]

/-- No match starts in a text without the pattern's first literal. -/
theorem search_append {x : α} {q : List (Atom α)} {a : List α} (hx : x ∉ a)
    (b : List α) : search (.lit x :: q) (a ++ b) = search (.lit x :: q) b := by
  induction a with
  | nil => rfl
  | cons y a ih =>
      rw [List.mem_cons, not_or] at hx
      have hhere : here (.lit x :: q) (y :: (a ++ b)) = false := by
        simp [here, Atom.admits, hx.1]
      rw [List.cons_append, search, hhere, Bool.false_or]
      exact ih hx.2

end Pattern
