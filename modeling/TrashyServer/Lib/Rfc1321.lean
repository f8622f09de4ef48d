/-
The compression of RFC 1321 (section 3.4) in 32-bit words.

A block is sixteen words, the low byte first. Four registers start from
the chaining state and go through 64 operations `[abcd k s i]`, each

  a = b + ((a + f(b, c, d) + X[k] + T[i]) <<< s)

in four rounds of sixteen, one auxiliary function a round; the registers
change places from one operation to the next. What is left in them is
added to the chaining state.

The registers are generic in the word, and an operation is data, so that
the same 64 of them can be carried out in words of another width.
-/
import TrashyServer.Lib.LittleEndian

namespace Rfc1321

universe u v

-- ============================================================== registers

/-- The registers by name. -/
inductive Reg
  | a
  | b
  | c
  | d
deriving DecidableEq

/-- Four words. -/
structure Regs (α : Type u) where
  a : α
  b : α
  c : α
  d : α
deriving DecidableEq

namespace Regs

variable {α : Type u} {β : Type v}

/-- The word of a register. -/
def get (r : Regs α) : Reg → α
  | .a => r.a
  | .b => r.b
  | .c => r.c
  | .d => r.d

/-- One register written. -/
def set (r : Regs α) (x : Reg) (w : α) : Regs α :=
  match x with
  | .a => { r with a := w }
  | .b => { r with b := w }
  | .c => { r with c := w }
  | .d => { r with d := w }

/-- The same in every register. -/
def map (f : α → β) (r : Regs α) : Regs β := ⟨f r.a, f r.b, f r.c, f r.d⟩

/-- Register by register. -/
def zipWith (f : α → α → α) (r s : Regs α) : Regs α :=
  ⟨f r.a s.a, f r.b s.b, f r.c s.c, f r.d s.d⟩

@[simp]
theorem get_map (f : α → β) (r : Regs α) (x : Reg) :
    (r.map f).get x = f (r.get x) := by
  cases x <;> rfl

@[simp]
theorem map_set (f : α → β) (r : Regs α) (x : Reg) (w : α) :
    (r.set x w).map f = (r.map f).set x (f w) := by
  cases x <;> rfl

/-- A register holds what was last written into it. -/
theorem set_inj (r : Regs α) (x : Reg) {w w' : α} :
    r.set x w = r.set x w' ↔ w = w' := by
  cases x <;> simp [set]

end Regs

-- ============================================================= operations

/-- The auxiliary function of a round. -/
inductive Aux
  | F
  | G
  | H
  | I
deriving DecidableEq

/-- `[abcd k s i]`: the function, the places of the registers, the index
of the message word, the rotation and the constant `T[i]`. -/
structure Op where
  aux : Aux
  ra : Reg
  rb : Reg
  rc : Reg
  rd : Reg
  k : Nat
  s : Nat
  t : Nat
deriving DecidableEq

/-- `T[i]`, the integer part of 4294967296 times abs(sin(i)). -/
def table : List Nat := [
  0xd76aa478, 0xe8c7b756, 0x242070db, 0xc1bdceee, 0xf57c0faf, 0x4787c62a,
  0xa8304613, 0xfd469501, 0x698098d8, 0x8b44f7af, 0xffff5bb1, 0x895cd7be,
  0x6b901122, 0xfd987193, 0xa679438e, 0x49b40821, 0xf61e2562, 0xc040b340,
  0x265e5a51, 0xe9b6c7aa, 0xd62f105d, 0x02441453, 0xd8a1e681, 0xe7d3fbc8,
  0x21e1cde6, 0xc33707d6, 0xf4d50d87, 0x455a14ed, 0xa9e3e905, 0xfcefa3f8,
  0x676f02d9, 0x8d2a4c8a, 0xfffa3942, 0x8771f681, 0x6d9d6122, 0xfde5380c,
  0xa4beea44, 0x4bdecfa9, 0xf6bb4b60, 0xbebfbc70, 0x289b7ec6, 0xeaa127fa,
  0xd4ef3085, 0x04881d05, 0xd9d4d039, 0xe6db99e5, 0x1fa27cf8, 0xc4ac5665,
  0xf4292244, 0x432aff97, 0xab9423a7, 0xfc93a039, 0x655b59c3, 0x8f0ccc92,
  0xffeff47d, 0x85845dd1, 0x6fa87e4f, 0xfe2ce6e0, 0xa3014314, 0x4e0811a1,
  0xf7537e82, 0xbd3af235, 0x2ad7d2bb, 0xeb86d391]

/-- An operation of a round, with the constant still to come: `j` counts
from 0 within the round. -/
def Op.ofRound (aux : Aux) (k : Nat → Nat) (s : List Nat) (j t : Nat) : Op :=
  let s := s.getD (j % 4) 0
  match j % 4 with
  | 0 => ⟨aux, .a, .b, .c, .d, k j % 16, s, t⟩
  | 1 => ⟨aux, .d, .a, .b, .c, k j % 16, s, t⟩
  | 2 => ⟨aux, .c, .d, .a, .b, k j % 16, s, t⟩
  | _ => ⟨aux, .b, .c, .d, .a, k j % 16, s, t⟩

/-- The 64 operations: in the four rounds the message words are taken
one by one, then in steps of five, of three and of seven. -/
def ops : List Op :=
  (table.zipIdx).map fun (t, i) =>
    match i / 16 with
    | 0 => .ofRound .F (fun j => j) [7, 12, 17, 22] (i % 16) t
    | 1 => .ofRound .G (fun j => 1 + 5 * j) [5, 9, 14, 20] (i % 16) t
    | 2 => .ofRound .H (fun j => 5 + 3 * j) [4, 11, 16, 23] (i % 16) t
    | _ => .ofRound .I (fun j => 7 * j) [6, 10, 15, 21] (i % 16) t

-- ============================================================ compression

/-- The auxiliary functions. -/
def Aux.eval (f : Aux) (x y z : UInt32) : UInt32 :=
  match f with
  | .F => (x &&& y) ||| (~~~x &&& z)
  | .G => (x &&& z) ||| (y &&& ~~~z)
  | .H => x ^^^ y ^^^ z
  | .I => y ^^^ (x ||| ~~~z)

/-- `x <<< s`, the bits that leave at the top coming in at the bottom. -/
def rotate (x : UInt32) (s : Nat) : UInt32 :=
  (x <<< UInt32.ofNat s) ||| (x >>> UInt32.ofNat (32 - s))

/-- A word of four bytes, the low one first. -/
def word (b₀ b₁ b₂ b₃ : UInt8) : UInt32 :=
  b₀.toUInt32 ||| (b₁.toUInt32 <<< 8) ||| (b₂.toUInt32 <<< 16)
    ||| (b₃.toUInt32 <<< 24)

/-- A byte shifted to its place loses nothing. -/
theorem toNat_shiftLeft (b : UInt8) {n : UInt32} (hn : n.toNat ≤ 24) :
    (b.toUInt32 <<< n).toNat = b.toNat <<< n.toNat := by
  have hn' : n.toNat < 32 := by omega
  have hlt : b.toNat <<< n.toNat < 2 ^ 32 :=
    calc b.toNat <<< n.toNat = b.toNat * 2 ^ n.toNat := Nat.shiftLeft_eq ..
      _ < 2 ^ 8 * 2 ^ n.toNat :=
          Nat.mul_lt_mul_of_pos_right b.toNat_lt (Nat.two_pow_pos _)
      _ ≤ 2 ^ 8 * 2 ^ 24 :=
          Nat.mul_le_mul_left _ (Nat.pow_le_pow_right Nat.two_pos hn)
  rw [UInt32.toNat_shiftLeft, UInt8.toNat_toUInt32, Nat.mod_eq_of_lt hn',
    Nat.mod_eq_of_lt hlt]

/-- A word is the number that its bytes stand for. -/
theorem toNat_word (b₀ b₁ b₂ b₃ : UInt8) :
    (word b₀ b₁ b₂ b₃).toNat = LittleEndian.value [b₀, b₁, b₂, b₃] := by
  have h₁ := toNat_shiftLeft b₁ (by decide : (8 : UInt32).toNat ≤ 24)
  have h₂ := toNat_shiftLeft b₂ (by decide : (16 : UInt32).toNat ≤ 24)
  have h₃ := toNat_shiftLeft b₃ (by decide : (24 : UInt32).toNat ≤ 24)
  unfold word
  rw [UInt32.toNat_or, UInt32.toNat_or, UInt32.toNat_or, h₁, h₂, h₃,
    UInt8.toNat_toUInt32, LittleEndian.value_four]
  rfl

/-- The words of a block. -/
def decode (block : List UInt8) : List UInt32 :=
  (List.range 16).map fun i =>
    word (block.getD (4 * i) 0) (block.getD (4 * i + 1) 0)
      (block.getD (4 * i + 2) 0) (block.getD (4 * i + 3) 0)

/-- One operation. -/
def Op.exec (x : List UInt32) (r : Regs UInt32) (op : Op) : Regs UInt32 :=
  r.set op.ra (r.get op.rb
    + rotate (r.get op.ra + op.aux.eval (r.get op.rb) (r.get op.rc)
        (r.get op.rd) + x.getD op.k 0 + UInt32.ofNat op.t) op.s)

/-- The registers after `k` operations on a block. -/
def after (w : Regs UInt32) (block : List UInt8) (k : Nat) : Regs UInt32 :=
  (ops.take k).foldl (Op.exec (decode block)) w

/-- The compression of a block. -/
def compress (w : Regs UInt32) (block : List UInt8) : Regs UInt32 :=
  w.zipWith (· + ·) (after w block 64)

/-- The empty message has the digest d41d8cd98f00b204e9800998ecf8427e. -/
example : compress ⟨0x67452301, 0xefcdab89, 0x98badcfe, 0x10325476⟩
    (0x80 :: List.replicate 63 0)
      = ⟨0xd98c1dd4, 0x04b2008f, 0x980980e9, 0x7e42f8ec⟩ := by
  decide +kernel

end Rfc1321
