/-
A desk: what any server owes that takes in one request after another
and answers each of them once.

Requests are numbered as they arrive. The state is the number the next
one gets, those waiting, and the answers given; the one law — the
numbers handed out are those waiting and those answered, each of them
once — is a field, so a desk that has answered twice, answered nobody or
lost a request cannot be built. A server refines it by saying which of
its own things are waiting, and gets the law for every run.
-/
import Mathlib.Data.List.Perm.Basic
import Mathlib.Data.List.Range
import Mathlib.Data.List.Nodup

universe u

/-- Requests waiting and requests answered. -/
structure Desk (α : Type u) where
  next : Nat
  waiting : List Nat
  answered : List (Nat × α)
  law : (waiting ++ answered.map Prod.fst).Perm (List.range next)

namespace Desk

variable {α : Type u} (d : Desk α)

/-- Nothing has arrived. -/
def opened : Desk α := ⟨0, [], [], List.Perm.refl _⟩

/-- A request arrives. -/
def arrive : Desk α where
  next := d.next + 1
  waiting := d.next :: d.waiting
  answered := d.answered
  law := by
    rw [List.range_succ]
    exact (d.law.cons d.next).trans (List.perm_append_singleton ..).symm

/-- A request that is waiting is answered. -/
def answer (i : Nat) (h : i ∈ d.waiting) (a : α) : Desk α where
  next := d.next
  waiting := d.waiting.erase i
  answered := d.answered ++ [(i, a)]
  law := by
    refine List.Perm.trans ?_ d.law
    rw [List.map_append, ← List.append_assoc]
    refine (List.perm_append_singleton ..).trans ?_
    rw [← List.cons_append]
    exact (List.perm_cons_erase h).symm.append_right _

/-- One thing that can happen at a desk. -/
inductive Step : Desk α → Desk α → Prop
  | arrive (d : Desk α) : Step d d.arrive
  | answer (d : Desk α) (i : Nat) (h : i ∈ d.waiting) (a : α) :
      Step d (d.answer i h a)

/-- No request is answered twice, and none that is waiting has been. -/
theorem nodup : (d.waiting ++ d.answered.map Prod.fst).Nodup :=
  d.law.nodup_iff.mpr List.nodup_range

end Desk
