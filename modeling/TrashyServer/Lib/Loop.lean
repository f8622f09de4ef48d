/-
`while` loops whose body may fail, and whether they end.

A loop is its condition and its body. `rounds n` goes round at most `n`
times: `none` is a loop still going then, `some` what it ended with. A
loop `Ends` from a state when some number of rounds is enough for it;
what it ends with does not depend on how many more it is given
(`rounds_unique`).

Whether a loop ends is settled after its next round (`ends_iff_of_ok`),
and a loop goes on for ever in a set of states that the body never
leaves and where the condition holds (`not_ends_of_invariant`).

What stands behind a loop comes to its turn when the loop has ended
without an error (`andThen`).
-/
import Mathlib.Data.Nat.Basic

namespace Loop

universe u v w

variable {σ : Type u} {ε : Type v} (cond : σ → Bool)
  (body : σ → Except ε σ)

-- ============================================================ the rounds

/-- `while (cond) body`, at most `n` times round. -/
def rounds : Nat → σ → Option (Except ε σ)
  | 0, s => if cond s then none else some (.ok s)
  | n + 1, s =>
      if cond s then
        match body s with
        | .ok s' => rounds n s'
        | .error e => some (.error e)
      else some (.ok s)

/-- The loop ends from `s`. -/
def Ends (s : σ) : Prop := ∃ n r, rounds cond body n s = some r

variable {cond body}

/-- A loop whose condition fails is over. -/
theorem rounds_of_not {s : σ} (h : cond s = false) (n : Nat) :
    rounds cond body n s = some (.ok s) := by
  cases n with
  | zero =>
      unfold rounds
      rw [if_neg]
      rw [h]
      exact Bool.false_ne_true
  | succ n =>
      unfold rounds
      rw [if_neg]
      rw [h]
      exact Bool.false_ne_true

theorem rounds_of_ok {s s' : σ} (h : cond s = true) (hb : body s = .ok s')
    (n : Nat) : rounds cond body (n + 1) s = rounds cond body n s' := by
  rw [rounds, if_pos h, hb]

theorem rounds_of_error {s : σ} {e : ε} (h : cond s = true)
    (hb : body s = .error e) (n : Nat) :
    rounds cond body (n + 1) s = some (.error e) := by
  rw [rounds, if_pos h, hb]

/-- A loop that is over is over with one more round to go. -/
theorem rounds_succ {n : Nat} {s : σ} {r : Except ε σ}
    (h : rounds cond body n s = some r) :
    rounds cond body (n + 1) s = some r := by
  induction n generalizing s with
  | zero =>
      cases hc : cond s with
      | false => rwa [rounds_of_not hc] at h ⊢
      | true =>
          rw [rounds, if_pos hc] at h
          cases h
  | succ n ih =>
      cases hc : cond s with
      | false => rwa [rounds_of_not hc] at h ⊢
      | true =>
          cases hb : body s with
          | ok s' =>
              rw [rounds_of_ok hc hb] at h ⊢
              exact ih h
          | error e => rwa [rounds_of_error hc hb] at h ⊢

theorem rounds_mono {n m : Nat} {s : σ} {r : Except ε σ} (hle : n ≤ m)
    (h : rounds cond body n s = some r) : rounds cond body m s = some r := by
  obtain ⟨k, rfl⟩ := Nat.exists_eq_add_of_le hle
  clear hle
  induction k with
  | zero => exact h
  | succ k ih => exact rounds_succ ih

/-- What a loop ends with does not depend on how many rounds it is
given. -/
theorem rounds_unique {n m : Nat} {s : σ} {r r' : Except ε σ}
    (h : rounds cond body n s = some r) (h' : rounds cond body m s = some r') :
    r = r' := by
  have hn := rounds_mono (Nat.le_max_left n m) h
  have hm := rounds_mono (Nat.le_max_right n m) h'
  rw [hn] at hm
  exact Option.some.inj hm

-- ================================================================ ending

/-- Whether a loop ends is settled after its next round. -/
theorem ends_iff_of_ok {s s' : σ} (h : cond s = true) (hb : body s = .ok s') :
    Ends cond body s ↔ Ends cond body s' := by
  constructor
  · rintro ⟨n, r, hr⟩
    refine ⟨n, r, ?_⟩
    rw [← rounds_of_ok h hb]
    exact rounds_succ hr
  · rintro ⟨n, r, hr⟩
    exact ⟨n + 1, r, by rw [rounds_of_ok h hb, hr]⟩

/-- A loop goes on for ever where the body keeps to states in which the
condition holds. -/
theorem not_ends_of_invariant {I : σ → Prop}
    (hcond : ∀ {s}, I s → cond s = true)
    (hstep : ∀ {s}, I s → ∃ s', body s = .ok s' ∧ I s') :
    ∀ {s : σ}, I s → ¬ Ends cond body s := by
  rintro s hs ⟨n, r, hr⟩
  induction n generalizing s with
  | zero =>
      rw [rounds, if_pos (hcond hs)] at hr
      cases hr
  | succ n ih =>
      obtain ⟨s', hb, hs'⟩ := hstep hs
      rw [rounds_of_ok (hcond hs) hb] at hr
      exact ih hs' hr

-- ============================================================ what follows

variable {α : Type u} {β : Type w} {ε' : Type v}

/-- What may go on for ever, and what comes behind it. -/
def andThen (x : Option (Except ε α)) (f : α → Option (Except ε β)) :
    Option (Except ε β) :=
  match x with
  | none => none
  | some (.error e) => some (.error e)
  | some (.ok a) => f a

/-- Two things that could come behind it are compared where it has come to
its end. -/
theorem andThen_congr {x : Option (Except ε α)}
    {f g : α → Option (Except ε β)} (h : ∀ a, x = some (.ok a) → f a = g a) :
    andThen x f = andThen x g := by
  match x with
  | none => rfl
  | some (.error e) => rfl
  | some (.ok a) => exact h a rfl

/-- Both parts have come to their ends. -/
theorem andThen_eq_ok {x : Option (Except ε α)} {f : α → Option (Except ε β)}
    {b : β} :
    andThen x f = some (.ok b) ↔ ∃ a, x = some (.ok a) ∧ f a = some (.ok b) := by
  constructor
  · intro h
    match x with
    | none => cases h
    | some (.error e) => cases h
    | some (.ok a) => exact ⟨a, rfl, h⟩
  · intro h
    obtain ⟨a, rfl, hb⟩ := h
    exact hb

/-- Errors of another kind. -/
theorem mapError_eq_ok {x : Except ε α} {f : ε → ε'} {a : α} :
    x.mapError f = .ok a ↔ x = .ok a := by
  cases x with
  | error e => exact iff_of_false (fun h => nomatch h) (fun h => nomatch h)
  | ok b => exact ⟨fun h => congrArg _ (Except.ok.inj h), fun h => by rw [h]; rfl⟩

theorem map_mapError_eq_ok {x : Option (Except ε α)} {f : ε → ε'} {a : α} :
    x.map (·.mapError f) = some (.ok a) ↔ x = some (.ok a) := by
  cases x with
  | none => exact iff_of_false (fun h => nomatch h) (fun h => nomatch h)
  | some r =>
      rw [Option.map_some, Option.some.injEq, Option.some.injEq]
      exact mapError_eq_ok

end Loop
