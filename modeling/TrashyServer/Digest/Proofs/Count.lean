/-
What the bit counter counts.

The two words of `_count` have 64 bits each, and `encode` keeps the low
32 of either. The first one is a sum of bits modulo 2^64, so its low half
is right. The second one should hold how many times 2^29 bytes have been
counted. It gets the whole ones of each call (`len >> 29`) and, instead
of what the remainders of the calls make together, the overflows of the
first word, which come at 2^61 bytes (`Counted`).

So the count is right exactly when the remainders of the calls below
2^29 bytes make up as many whole ones as the remainders below 2^61 make
overflows, modulo 2^32 (`counts_iff`): a matter of where the calls were
cut.
-/
import TrashyServer.Digest.Proofs.Ask
import TrashyServer.Digest.Proofs.Coding

namespace TrashyServer.Digest

open LittleEndian (value value_append)

variable {T : Transformers}

-- ================================================================ the lengths

/-- The whole 2^29 bytes of each call. -/
def wholes (us : List Str) : Nat := (us.map fun u => u.length / 2 ^ 29).sum

/-- What the calls leave over below 2^w bytes. -/
def remainders (w : Nat) (us : List Str) : Nat :=
  (us.map fun u => u.length % 2 ^ w).sum

theorem wholes_append (us : List Str) (u : Str) :
    wholes (us ++ [u]) = wholes us + u.length / 2 ^ 29 := by
  unfold wholes
  simp

theorem remainders_append (w : Nat) (us : List Str) (u : Str) :
    remainders w (us ++ [u]) = remainders w us + u.length % 2 ^ w := by
  unfold remainders
  simp

/-- All bytes are in the whole ones and what is left over. -/
theorem length_flatten_eq (us : List Str) :
    us.flatten.length = 2 ^ 29 * wholes us + remainders 29 us := by
  induction us with
  | nil => rfl
  | cons u us ih =>
      have hw : wholes (u :: us) = u.length / 2 ^ 29 + wholes us := rfl
      have hr : remainders 29 (u :: us) = u.length % 2 ^ 29 + remainders 29 us :=
        rfl
      rw [List.flatten_cons, List.length_append, ih, hw, hr]
      omega

/-- Below 2^29 the two remainders agree. -/
theorem remainders_mod (us : List Str) :
    remainders 61 us % 2 ^ 29 = remainders 29 us % 2 ^ 29 := by
  induction us with
  | nil => rfl
  | cons u us ih =>
      have hr : ∀ w, remainders w (u :: us)
          = u.length % 2 ^ w + remainders w us := fun _ => rfl
      rw [hr, hr]
      omega

-- =============================================================== the counter

/-- The counter after calls of `update` on these ranges. -/
structure Counted (s : Md5) (us : List Str) : Prop where
  count0 : s.count0.toNat = 8 * remainders 61 us % 2 ^ 64
  count1 : s.count1.toNat % 2 ^ 32
    = (wholes us + remainders 61 us / 2 ^ 61) % 2 ^ 32

theorem counted_reset (s : Md5) : Counted s.reset [] := ⟨rfl, rfl⟩

theorem count0_update (s : Md5) (u : Str) :
    (s.update T u).count0 = (s.count u.length).count0 := by
  by_cases hle : 64 - s.index ≤ u.length
  · rw [update_of_le hle, Md5.feed_eq]
    rfl
  · rw [update_of_lt (Nat.not_le.mp hle)]
    rfl

/-- A sum that comes out below one of its terms has overflowed. -/
theorem add_lt_iff (x y : UInt64) :
    x + y < y ↔ 2 ^ 64 ≤ x.toNat + y.toNat := by
  have hx := x.toNat_lt
  have hy := y.toNat_lt
  rw [UInt64.lt_iff_toNat_lt, UInt64.toNat_add]
  omega

/-- The high word gets the whole ones of a call, and one more where the
low word overflows. -/
theorem toNat_count1 (s : Md5) (len : Nat) :
    (s.count len).count1.toNat % 2 ^ 32
      = (s.count1.toNat + len / 2 ^ 29
          + (s.count0.toNat + 8 * (len % 2 ^ 61)) / 2 ^ 64) % 2 ^ 32 := by
  have hlow := s.count0.toNat_lt
  have hbits : (UInt64.ofNat (8 * len)).toNat = 8 * (len % 2 ^ 61) := by
    rw [UInt64.toNat_ofNat']
    omega
  have hlen : (UInt64.ofNat len >>> 29).toNat = len % 2 ^ 64 / 2 ^ 29 := by
    rw [UInt64.toNat_shiftRight, UInt64.toNat_ofNat']
    exact Nat.shiftRight_eq_div_pow ..
  have hcarry := add_lt_iff s.count0 (UInt64.ofNat (8 * len))
  rw [hbits] at hcarry
  unfold Md5.count
  dsimp only
  rw [UInt64.toNat_add, hlen, ofNat_shiftLeft]
  split
  · next h =>
    have hover := hcarry.mp h
    rw [UInt64.toNat_add]
    show ((s.count1.toNat + 1) % 2 ^ 64 + _) % 2 ^ 64 % 2 ^ 32 = _
    omega
  · next h =>
    have hfits := mt hcarry.mpr h
    omega

/-- One more call. -/
theorem Counted.update {s : Md5} {us : List Str} (h : Counted s us) (u : Str) :
    Counted (s.update T u) (us ++ [u]) := by
  have hcount0 := h.count0
  have hcount1 := h.count1
  constructor
  · rw [count0_update, count_count0, UInt64.toNat_add, UInt64.toNat_ofNat',
      remainders_append]
    omega
  · rw [count1_update, toNat_count1, wholes_append, remainders_append]
    omega

theorem Counted.updates {vs : List Str} :
    ∀ {s : Md5} {us : List Str}, Counted s us →
      Counted (s.updates T vs) (us ++ vs) := by
  induction vs with
  | nil =>
      intro s us h
      rw [List.append_nil]
      exact h
  | cons v vs ih =>
      intro s us h
      have hnext := ih (h.update (T := T) v)
      rw [List.append_assoc] at hnext
      exact hnext

-- ================================================================= the bytes

/-- The bytes that `final` makes of the count. -/
def Md5.bits (s : Md5) : Str := encode [s.count0, s.count1]

/-- They are the last ones it gives to `update`. -/
example (s : Md5) :
    (s.final T).fed
      = ((s.update T (padding.take (padLen s.index))).update T s.bits).fed :=
  rfl

/-- What they stand for. -/
theorem value_bits (s : Md5) :
    value s.bits
      = s.count0.toNat % 2 ^ 32 + 2 ^ 32 * (s.count1.toNat % 2 ^ 32) := by
  have hbits : s.bits = encodeWord s.count0 ++ encodeWord s.count1 := by
    unfold Md5.bits encode
    simp
  have hfour : (encodeWord s.count0).length = 4 := rfl
  rw [hbits, value_append, value_encodeWord, value_encodeWord, hfour]
  omega

/-- After these calls on a reset object, the bytes that `final` encodes
stand for the number of bits, modulo 2^64. -/
def BitsCounted (T : Transformers) (s : Md5) (cs : List Call) : Prop :=
  ∃ n s', s.reset.calls T n cs = some (.ok s')
    ∧ value s'.bits = 8 * (message cs).length % 2 ^ 64

/-- The calls come to an object, and it has counted their ranges. -/
theorem bitsCounted_iff (s : Md5) (cs : List Call) :
    BitsCounted T s cs
      ↔ 8 * remainders 61 (cs.flatMap Call.ranges) % 2 ^ 32
          + 2 ^ 32 * ((wholes (cs.flatMap Call.ranges)
            + remainders 61 (cs.flatMap Call.ranges) / 2 ^ 61) % 2 ^ 32)
        = 8 * (message cs).length % 2 ^ 64 := by
  have hcounted : Counted (s.reset.updates T (cs.flatMap Call.ranges))
      (cs.flatMap Call.ranges) :=
    (counted_reset s).updates
  have hvalue : value (s.reset.updates T (cs.flatMap Call.ranges)).bits
      = 8 * remainders 61 (cs.flatMap Call.ranges) % 2 ^ 32
          + 2 ^ 32 * ((wholes (cs.flatMap Call.ranges)
            + remainders 61 (cs.flatMap Call.ranges) / 2 ^ 61) % 2 ^ 32) := by
    rw [value_bits, hcounted.count0, hcounted.count1]
    omega
  rw [← hvalue]
  exact exists_calls_iff

/-- When the bit counter counts. For every block function, object and
sequence of calls of `update`, on ranges of any lengths and on files:
the eight bytes that `final` encodes stand for 8 times the number of
bytes, modulo 2^64, exactly when what the calls leave over below 2^29
bytes makes together as many whole 2^29, modulo 2^32, as what they leave
over below 2^61 bytes makes whole 2^61. -/
theorem counts_iff (T : Transformers) (s : Md5) (cs : List Call) :
    BitsCounted T s cs
      ↔ remainders 29 (cs.flatMap Call.ranges) / 2 ^ 29 % 2 ^ 32
        = remainders 61 (cs.flatMap Call.ranges) / 2 ^ 61 % 2 ^ 32 := by
  have hlen := length_flatten_eq (cs.flatMap Call.ranges)
  rw [flatten_ranges] at hlen
  have hmod := remainders_mod (cs.flatMap Call.ranges)
  rw [bitsCounted_iff, hlen]
  omega

/-- Two calls with 2^28 bytes each are counted as nothing. -/
theorem halves_not_counted :
    ¬ BitsCounted transformers (filled 0)
        [.range (List.replicate (2 ^ 28) 0),
          .range (List.replicate (2 ^ 28) 0)] := by
  have htwo : ∀ u : Str, u.length = 2 ^ 28 →
      ¬ BitsCounted transformers (filled 0) [.range u, .range u] := by
    intro u hu
    have hranges : [Call.range u, Call.range u].flatMap Call.ranges = [u, u] :=
      rfl
    have hmessage : message [.range u, .range u] = u ++ (u ++ []) := rfl
    have hwholes : wholes [u, u] = u.length / 2 ^ 29 + (u.length / 2 ^ 29 + 0) :=
      rfl
    have hremainders : remainders 61 [u, u]
        = u.length % 2 ^ 61 + (u.length % 2 ^ 61 + 0) := rfl
    rw [bitsCounted_iff, hranges, hmessage, hwholes, hremainders,
      List.length_append, List.length_append, List.length_nil, hu]
    decide
  exact htwo _ List.length_replicate

end TrashyServer.Digest
