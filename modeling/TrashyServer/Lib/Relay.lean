/-
A relay: what any component owes that takes a stream in on one side
and passes it on at the other, in order and without loss.

The state is the whole history on both sides, and the one law — what
went out is a prefix of what came in — is a field, so a relay that has
lost, invented or reordered an element cannot be built. The backlog is
a function of the two histories, not a third component: an
implementation shows that its own queue is `pending` and gets every
conservation statement from `inp_eq`.
-/
import Mathlib.Data.List.Infix

universe u

/-- Everything taken in so far and everything passed on so far. -/
structure Relay (α : Type u) where
  inp : List α
  out : List α
  fifo : out <+: inp

namespace Relay

variable {α : Type u} (r : Relay α)

/-- A relay nothing has gone through. -/
def fresh : Relay α := ⟨[], [], List.prefix_rfl⟩

/-- What has come in and not gone out. -/
def pending : List α := r.inp.drop r.out.length

/-- Take in some elements. -/
def recv (bs : List α) : Relay α :=
  ⟨r.inp ++ bs, r.out, r.fifo.trans (List.prefix_append ..)⟩

/-- Pass on the next `n` pending elements (all of them, when fewer are
pending). -/
def send (n : Nat) : Relay α :=
  ⟨r.inp, r.inp.take (r.out.length + n), List.take_prefix ..⟩

/-- Take some in, then pass some on. -/
def move (m : List α × Nat) : Relay α := (r.recv m.1).send m.2

/-- What has come in after some moves. -/
theorem inp_moves (moves : List (List α × Nat)) :
    (moves.foldl move r).inp = r.inp ++ (moves.map Prod.fst).flatten := by
  induction moves generalizing r with
  | nil => exact (List.append_nil _).symm
  | cons m moves ih =>
      rw [List.foldl_cons, ih, List.map_cons, List.flatten_cons,
        ← List.append_assoc]
      rfl

/-- Conservation: in is out followed by pending. -/
theorem inp_eq : r.inp = r.out ++ r.pending :=
  (List.prefix_iff_eq_append.mp r.fifo).symm

/-- Histories with the conservation law are a relay, and its backlog is
the stated one. -/
theorem pending_of_eq {inp out q : List α} (h : inp = out ++ q) :
    (⟨inp, out, ⟨q, h.symm⟩⟩ : Relay α).pending = q := by
  subst h
  exact List.drop_left

/-- Sending appends the head of the backlog to what went out. -/
theorem out_send (n : Nat) : (r.send n).out = r.out ++ r.pending.take n := by
  show r.inp.take (r.out.length + n) = _
  conv => lhs; rw [r.inp_eq]
  rw [List.take_length_add_append]

/-- Sending drops the head of the backlog. -/
@[simp] theorem pending_send (n : Nat) :
    (r.send n).pending = r.pending.drop n := by
  have h : r.inp = (r.send n).out ++ r.pending.drop n := by
    rw [r.out_send, List.append_assoc, List.take_append_drop]
    exact r.inp_eq
  exact pending_of_eq h

/-- Two relays with the same histories are the same relay. -/
@[ext] theorem ext {r r' : Relay α} (hi : r.inp = r'.inp)
    (ho : r.out = r'.out) : r = r' := by
  cases r
  cases r'
  cases hi
  cases ho
  rfl

end Relay
