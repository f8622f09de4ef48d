/-
Relays in series: what leaves one is what enters the next.

Seen from outside a series is a relay again: what has entered the first
is what has left the last followed by the stages' backlogs, the last
stage's first (`inp_eq_held`). One thing can happen to it (`advance`):
something enters, and each stage takes in what the one before it passes
on and passes on some of what it then holds.

`hops` is how many stages the backlog has still to pass. What enters is
owed one for each stage, each element passed on takes one away, and
nothing else changes it (`hops_advance`): between two times that
something enters, a series can do only so much.
-/
import TrashyServer.Lib.Relay
import Mathlib.Data.List.Chain
import Mathlib.Tactic.Ring

universe u

variable {α : Type u}

namespace Relay

/-- One relay feeds another: the one takes in what the other has passed
on. -/
def Feeds (r s : Relay α) : Prop := r.out = s.inp

/-- Taking in more adds to the backlog. -/
@[simp] theorem pending_recv (r : Relay α) (bs : List α) :
    (r.recv bs).pending = r.pending ++ bs := by
  have h : (r.recv bs).inp = r.out ++ (r.pending ++ bs) := by
    rw [← List.append_assoc, ← r.inp_eq]
    rfl
  exact pending_of_eq h

/-- What goes out in a move is taken off the backlog with what came
in. -/
theorem out_move (r : Relay α) (x : List α) (n : Nat) :
    (r.move (x, n)).out = r.out ++ (r.pending ++ x).take n := by
  rw [move, out_send, pending_recv]
  rfl

@[simp] theorem pending_move (r : Relay α) (x : List α) (n : Nat) :
    (r.move (x, n)).pending = (r.pending ++ x).drop n := by
  rw [move, pending_send, pending_recv]

/-- A relay is known to have moved by its two histories. -/
theorem eq_move {r r' : Relay α} {x : List α} {n : Nat}
    (hi : r'.inp = r.inp ++ x)
    (ho : r'.out = r.out ++ (r.pending ++ x).take n) : r' = r.move (x, n) :=
  ext hi (ho.trans (r.out_move x n).symm)

end Relay

namespace Pipeline

-- ============================================================= the backlog

/-- What a series of relays holds, the oldest first. -/
def held : List (Relay α) → List α
  | [] => []
  | r :: rs => held rs ++ r.pending

/-- How many stages the elements held have still to pass, in all. -/
def hops : List (Relay α) → Nat
  | [] => 0
  | r :: rs => (rs.length + 1) * r.pending.length + hops rs

/-- Conservation through any number of stages. -/
theorem inp_eq_held :
    ∀ (r : Relay α) (rs : List (Relay α)), (r :: rs).IsChain Relay.Feeds →
      r.inp = ((r :: rs).getLast (List.cons_ne_nil r rs)).out
        ++ held (r :: rs) := by
  intro r rs
  induction rs generalizing r with
  | nil =>
      intro _
      exact r.inp_eq
  | cons s rs ih =>
      intro h
      obtain ⟨hfeeds, htail⟩ := List.isChain_cons_cons.mp h
      have hin : r.out = s.inp := hfeeds
      have hs := ih s htail
      rw [List.getLast_cons (List.cons_ne_nil s rs)]
      calc r.inp = r.out ++ r.pending := r.inp_eq
        _ = s.inp ++ r.pending := by rw [hin]
        _ = _ := by
          conv => lhs; rw [hs]
          rw [List.append_assoc]
          rfl

/-- No element held is owed more hops than there are stages. -/
theorem hops_le (rs : List (Relay α)) :
    hops rs ≤ rs.length * (held rs).length := by
  induction rs with
  | nil => exact Nat.zero_le _
  | cons r rs ih =>
      have hstep : rs.length * (held rs).length
          ≤ (rs.length + 1) * (held rs).length :=
        Nat.mul_le_mul_right _ (Nat.le_succ _)
      rw [held, hops, List.length_append, List.length_cons, Nat.mul_add]
      omega

-- ================================================================ the moves

/-- `x` enters the first stage, and the stages in turn pass on as many
elements as the list says; those behind its end pass on nothing. -/
def advance : List Nat → List α → List (Relay α) → List (Relay α)
  | _, _, [] => []
  | [], x, r :: rs => r.recv x :: rs
  | n :: ns, x, r :: rs =>
      r.move (x, n) :: advance ns ((r.pending ++ x).take n) rs

/-- How many elements the stages pass on in all. -/
def passed : List Nat → List α → List (Relay α) → Nat
  | _, _, [] => 0
  | [], _, _ :: _ => 0
  | n :: ns, x, r :: rs =>
      ((r.pending ++ x).take n).length
        + passed ns ((r.pending ++ x).take n) rs

@[simp] theorem length_advance (ns : List Nat) (x : List α)
    (rs : List (Relay α)) : (advance ns x rs).length = rs.length := by
  induction rs generalizing ns x with
  | nil => rw [advance]
  | cons r rs ih =>
      cases ns with
      | nil => rw [advance, List.length_cons, List.length_cons]
      | cons n ns => rw [advance, List.length_cons, ih, List.length_cons]

/-- What the stages have passed on is what they pass on now and what
they had before. -/
theorem outs_advance (ns : List Nat) (x : List α) (rs : List (Relay α)) :
    ((advance ns x rs).map (·.out.length)).sum
      = (rs.map (·.out.length)).sum + passed ns x rs := by
  induction rs generalizing ns x with
  | nil => rw [advance, passed, Nat.add_zero]
  | cons r rs ih =>
      cases ns with
      | nil => rw [advance, passed, Nat.add_zero]; rfl
      | cons n ns =>
          rw [advance, passed, List.map_cons, List.map_cons, List.sum_cons,
            List.sum_cons, ih, Relay.out_move, List.length_append]
          omega

/-- What enters is owed a hop for each stage, and each element passed on
takes one away. -/
theorem hops_advance (ns : List Nat) (x : List α) (rs : List (Relay α)) :
    hops (advance ns x rs) + passed ns x rs
      = hops rs + rs.length * x.length := by
  induction rs generalizing ns x with
  | nil => simp [advance, hops, passed]
  | cons r rs ih =>
      cases ns with
      | nil =>
          rw [advance, passed, hops, hops, Relay.pending_recv,
            List.length_append, List.length_cons]
          ring
      | cons n ns =>
          have hrest := ih ns ((r.pending ++ x).take n)
          have hsplit : ((r.pending ++ x).take n).length
              + ((r.pending ++ x).drop n).length
                = r.pending.length + x.length := by
            rw [← List.length_append, List.take_append_drop,
              List.length_append]
          rw [advance, passed, hops, hops, length_advance, Relay.pending_move,
            List.length_cons]
          generalize ((r.pending ++ x).take n).length = a at hrest hsplit ⊢
          generalize ((r.pending ++ x).drop n).length = b at hsplit ⊢
          calc (rs.length + 1) * b + hops (advance ns _ rs) + (a + passed ns _ rs)
              = (rs.length + 1) * b + a
                + (hops (advance ns _ rs) + passed ns _ rs) := by ring
            _ = (rs.length + 1) * b + a + (hops rs + rs.length * a) := by
                rw [hrest]
            _ = (rs.length + 1) * (a + b) + hops rs := by ring
            _ = _ := by rw [hsplit]; ring

end Pipeline
