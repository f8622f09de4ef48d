/-
The number that bytes stand for, the low one first.

Bytes are digits to the base 256 (`Nat.ofDigits`). A number of so many
bytes determines them (`value_inj`), and appending bytes adds what they
stand for behind the first ones (`value_append`).
-/
import Mathlib.Data.Nat.Digits.Defs

namespace LittleEndian

/-- The number that these bytes stand for. -/
def value (b : List UInt8) : Nat := Nat.ofDigits 256 (b.map UInt8.toNat)

@[simp]
theorem value_nil : value [] = 0 := rfl

@[simp]
theorem value_cons (x : UInt8) (b : List UInt8) :
    value (x :: b) = x.toNat + 256 * value b := Nat.ofDigits_cons

theorem value_append (a b : List UInt8) :
    value (a ++ b) = value a + 256 ^ a.length * value b := by
  unfold value
  rw [List.map_append, Nat.ofDigits_append, List.length_map]

theorem digit_lt {b : List UInt8} : ∀ d ∈ b.map UInt8.toNat, d < 256 := by
  intro d hd
  obtain ⟨x, -, rfl⟩ := List.mem_map.mp hd
  exact x.toNat_lt

/-- The same number in as many bytes is the same bytes. -/
theorem value_inj {a b : List UInt8} (hlen : a.length = b.length)
    (h : value a = value b) : a = b := by
  have hdigits : a.map UInt8.toNat = b.map UInt8.toNat := by
    apply Nat.ofDigits_inj_of_len_eq (by omega : 1 < 256)
    · rw [List.length_map, List.length_map, hlen]
    · exact digit_lt
    · exact digit_lt
    · exact h
  exact (List.map_inj_right fun _ _ => UInt8.toNat_inj.mp).mp hdigits

/-- Bits set above a number add to it. -/
theorem or_shiftLeft {a i : Nat} (h : a < 2 ^ i) (b : Nat) :
    a ||| b <<< i = a + 2 ^ i * b :=
  calc a ||| b <<< i = b <<< i ||| a := Nat.or_comm ..
    _ = b <<< i + a := (Nat.shiftLeft_add_eq_or_of_lt h b).symm
    _ = a + 2 ^ i * b := by rw [Nat.shiftLeft_eq, Nat.mul_comm, Nat.add_comm]

/-- Four bytes shifted to their places. -/
theorem value_four (b₀ b₁ b₂ b₃ : UInt8) :
    value [b₀, b₁, b₂, b₃]
      = b₀.toNat ||| b₁.toNat <<< 8 ||| b₂.toNat <<< 16 ||| b₃.toNat <<< 24 := by
  have h₀ := b₀.toNat_lt
  have h₁ := b₁.toNat_lt
  have h₂ := b₂.toNat_lt
  have hlow : b₀.toNat ||| b₁.toNat <<< 8 = b₀.toNat + 2 ^ 8 * b₁.toNat :=
    or_shiftLeft h₀ _
  have hmid : b₀.toNat + 2 ^ 8 * b₁.toNat ||| b₂.toNat <<< 16
      = b₀.toNat + 2 ^ 8 * b₁.toNat + 2 ^ 16 * b₂.toNat :=
    or_shiftLeft (by omega) _
  have hhigh : b₀.toNat + 2 ^ 8 * b₁.toNat + 2 ^ 16 * b₂.toNat
        ||| b₃.toNat <<< 24
      = b₀.toNat + 2 ^ 8 * b₁.toNat + 2 ^ 16 * b₂.toNat + 2 ^ 24 * b₃.toNat :=
    or_shiftLeft (by omega) _
  rw [hlow, hmid, hhigh, value_cons, value_cons, value_cons, value_cons,
    value_nil]
  omega

end LittleEndian
