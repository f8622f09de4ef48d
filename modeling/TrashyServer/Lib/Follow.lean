/-
One machine following another, step for step.

Two machines run over the same list of steps, and `π` forgets what the
second one does not have. Where it is known exactly when a single step
of the first is a step of the second (`ok`), a whole run follows the
other through every state exactly when each of its steps is of that
kind (`follows_iff`).
-/
import Mathlib.Data.List.Basic

namespace Follow

universe u v w

variable {σ : Type u} {τ : Type v} {ι : Type w}

/-- The first machine is in the states of the second, all along. -/
def Follows (f : σ → ι → σ) (g : τ → ι → τ) (π : σ → τ) (s : σ) (t : τ)
    (l : List ι) : Prop :=
  ∀ k ≤ l.length, π ((l.take k).foldl f s) = (l.take k).foldl g t

/-- A condition on each step of a run and the state before it. -/
def Each (f : σ → ι → σ) (ok : σ → ι → Prop) (s : σ) (l : List ι) : Prop :=
  ∀ k (h : k < l.length), ok ((l.take k).foldl f s) l[k]

variable {f : σ → ι → σ} {g : τ → ι → τ} {π : σ → τ} {ok : σ → ι → Prop}

/-- Following is following in the first step, and from there on. -/
theorem follows_cons {s : σ} {t : τ} {i : ι} {l : List ι} :
    Follows f g π s t (i :: l)
      ↔ π s = t ∧ Follows f g π (f s i) (g t i) l := by
  constructor
  · intro h
    refine ⟨h 0 (Nat.zero_le _), fun k hk => ?_⟩
    exact h (k + 1) (Nat.succ_le_succ hk)
  · rintro ⟨hs, h⟩ k hk
    cases k with
    | zero => exact hs
    | succ k => exact h k (Nat.le_of_succ_le_succ hk)

theorem each_cons {s : σ} {i : ι} {l : List ι} :
    Each f ok s (i :: l) ↔ ok s i ∧ Each f ok (f s i) l := by
  constructor
  · intro h
    exact ⟨h 0 (Nat.succ_pos _), fun k hk => h (k + 1) (Nat.succ_lt_succ hk)⟩
  · rintro ⟨hs, h⟩ k hk
    cases k with
    | zero => exact hs
    | succ k => exact h k (Nat.lt_of_succ_lt_succ hk)

/-- A run that follows ends in the state of the other. -/
theorem Follows.foldl_eq {s : σ} {t : τ} {l : List ι}
    (h : Follows f g π s t l) : π (l.foldl f s) = l.foldl g t := by
  have hall := h l.length (Nat.le_refl _)
  rwa [List.take_length] at hall

/-- From states that agree, a run follows exactly when each of its steps
does. -/
theorem follows_iff {l : List ι}
    (hstep : ∀ s, ∀ i ∈ l, π (f s i) = g (π s) i ↔ ok s i) {s : σ} {t : τ}
    (hs : π s = t) : Follows f g π s t l ↔ Each f ok s l := by
  induction l generalizing s t with
  | nil =>
      refine iff_of_true (fun k hk => ?_) fun k hk => absurd hk (Nat.not_lt_zero k)
      rw [List.take_nil]
      exact hs
  | cons i l ih =>
      subst hs
      have hhead := hstep s i (List.mem_cons_self ..)
      have htail := fun s j hj => hstep s j (List.mem_cons_of_mem i hj)
      rw [follows_cons, each_cons, ← hhead]
      constructor
      · rintro ⟨-, h⟩
        have hnext := h 0 (Nat.zero_le _)
        exact ⟨hnext, (ih htail hnext).mp h⟩
      · rintro ⟨hnext, h⟩
        exact ⟨rfl, (ih htail hnext).mpr h⟩

/-- Where only the steps of a kind are known to be steps of the other,
a run of such steps follows. -/
theorem Each.follows {s : σ} {l : List ι} (h : Each f ok s l)
    (hstep : ∀ s i, ok s i → π (f s i) = g (π s) i) :
    Follows f g π s (π s) l := by
  induction l generalizing s with
  | nil =>
      intro k _
      rw [List.take_nil]
      rfl
  | cons i l ih =>
      obtain ⟨hi, hl⟩ := each_cons.mp h
      have hrest := ih hl
      rw [hstep s i hi] at hrest
      exact follows_cons.mpr ⟨rfl, hrest⟩

end Follow
