/-
The block function against the compression of RFC 1321.

# Where the halves meet

The low halves of 64-bit words are 32-bit words under addition and under
the bitwise operations (`low_aux`, `low_decodeWord`), the sign that
`decode` extends included. `ROTATE_LEFT` alone looks at both halves: its
right shift brings bits 32 and up of the sum down to where, in 32 bits,
only bits of the left shift are. The low half is the 32-bit rotation
exactly when each bit it brings was set there already (`Settled`,
`low_rotateLeft_iff`).

# A run

One macro call is thus one operation of RFC 1321 exactly when its sum is
settled (`low_expand_iff`). The 64 of a block follow the RFC's through
all registers exactly when each of them is (`tracked_iff`), and
so do the blocks of a message, one after the other (`transformers_iff`).
-/
import TrashyServer.Lib.Follow
import TrashyServer.Digest.Transform

namespace TrashyServer.Digest

open Rfc1321 (Aux Op Reg Regs)
open Follow (Follows Each follows_iff)

-- ========================================================== the low halves

/-- The low half of a word. -/
abbrev low (x : UInt64) : UInt32 := x.toUInt32

/-- The low halves of the chaining state. -/
def MagicNum.low (m : MagicNum) : Regs UInt32 :=
  ⟨m.m0.toUInt32, m.m1.toUInt32, m.m2.toUInt32, m.m3.toUInt32⟩

theorem low_aux (f : Aux) (x y z : UInt64) :
    low (aux f x y z) = f.eval (low x) (low y) (low z) := by
  cases f <;> simp [aux, F, G, H, I, Aux.eval, low]

/-- The sign of a shifted byte is in the high half alone. -/
theorem low_shifted (b : UInt8) (n : UInt32) :
    low (shifted b n) = b.toUInt32 <<< n := by
  have hsign : ∀ x : BitVec 32, (x.signExtend 64).setWidth 32 = x := by
    intro x
    apply BitVec.eq_of_getLsbD_eq
    intro i hi
    have hwide : i < 64 := by omega
    rw [BitVec.getLsbD_setWidth, BitVec.getLsbD_signExtend]
    simp [hi, hwide]
  apply UInt32.toBitVec_inj.mp
  exact hsign _

theorem low_decodeWord (b₀ b₁ b₂ b₃ : UInt8) :
    low (decodeWord b₀ b₁ b₂ b₃) = Rfc1321.word b₀ b₁ b₂ b₃ := by
  have hfirst : low b₀.toUInt64 = b₀.toUInt32 := by simp [low]
  unfold decodeWord Rfc1321.word
  rw [← low_shifted, ← low_shifted, ← low_shifted, ← hfirst]
  simp [low]

theorem low_decode (block : Str) (k : Nat) :
    low ((decode block).getD k 0) = (Rfc1321.decode block).getD k 0 := by
  have hmap : (decode block).map low = Rfc1321.decode block := by
    unfold decode Rfc1321.decode
    rw [List.map_map]
    apply List.map_congr_left
    intro i _
    exact low_decodeWord ..
  rw [← hmap]
  simp [List.getD_eq_getElem?_getD]
  cases (decode block)[k]? <;> rfl

-- ============================================================ ROTATE_LEFT

/-- Every bit that the right shift of `ROTATE_LEFT` brings down from the
high half is set there already. -/
def Settled (v : UInt64) (n : Nat) : Prop :=
  ∀ i < 32 - n, v.toBitVec.getLsbD (32 + i) = true →
    v.toBitVec.getLsbD i = true

instance (v : UInt64) (n : Nat) : Decidable (Settled v n) :=
  Nat.decidableBallLT _ _

/-- The rotation, bit by bit. -/
theorem setWidth_rotate_iff (v : BitVec 64) {n : Nat} (hn : n < 32) :
    (v <<< n ||| v >>> (32 - n)).setWidth 32
        = v.setWidth 32 <<< n ||| v.setWidth 32 >>> (32 - n)
      ↔ ∀ i < 32 - n, v.getLsbD (32 + i) = true → v.getLsbD i = true := by
  constructor
  · intro heq i hi hv
    have hbit := congrArg (·.getLsbD (n + i)) heq
    have hin : n + i < 32 := by omega
    have hsub : 32 - n + (n + i) = 32 + i := by omega
    simp [hsub, hin, hv] at hbit
    exact hbit
  · intro hall
    apply BitVec.eq_of_getLsbD_eq
    intro i hi
    by_cases hin : i < n
    · have hlow : 32 - n + i < 32 := by omega
      simp [hi, hin, hlow]
    · have hsub : 32 - n + i = 32 + (i - n) := by omega
      have hbit := hall (i - n) (by omega)
      cases hv : v.getLsbD (32 + (i - n)) with
      | true => simp [hi, hin, hsub, hv, hbit hv]
      | false => simp [hi, hin, hsub, hv]

/-- `ROTATE_LEFT` is the 32-bit rotation in the low half exactly on a
settled word. -/
theorem low_rotateLeft_iff (v : UInt64) {n : Nat} (hpos : 0 < n)
    (hn : n < 32) :
    low (rotateLeft v n) = Rfc1321.rotate (low v) n ↔ Settled v n := by
  have hleft : n % 64 = n ∧ n % 32 = n := by omega
  have hright : (32 - n) % 64 = 32 - n ∧ (32 - n) % 32 = 32 - n := by omega
  rw [← UInt32.toBitVec_inj]
  unfold rotateLeft Rfc1321.rotate Settled
  rw [← setWidth_rotate_iff _ hn]
  simp [low, hleft, hright]

-- ========================================================= one macro call

/-- The sum, in the low half. -/
theorem low_sum (block : Str) (r : Regs UInt64) (op : Op) :
    low (sum (decode block) r op)
      = (r.map low).get op.ra
        + op.aux.eval ((r.map low).get op.rb) ((r.map low).get op.rc)
            ((r.map low).get op.rd)
        + (Rfc1321.decode block).getD op.k 0 + UInt32.ofNat op.t := by
  have hconst : low (UInt64.ofNat op.t) = UInt32.ofNat op.t := by
    simp [low]
  rw [Regs.get_map, Regs.get_map, Regs.get_map, Regs.get_map, ← low_aux,
    ← low_decode, ← hconst, UInt32.add_assoc, UInt32.add_assoc]
  unfold sum low
  rw [UInt64.toUInt32_add, UInt64.toUInt32_add, UInt64.toUInt32_add,
    UInt32.add_assoc]

/-- A macro call is an operation of RFC 1321 exactly when its sum is
settled. -/
theorem low_expand_iff (block : Str) (r : Regs UInt64) {op : Op}
    (hpos : 0 < op.s) (hs : op.s < 32) :
    (expand (decode block) r op).map low
        = op.exec (Rfc1321.decode block) (r.map low)
      ↔ Settled (sum (decode block) r op) op.s := by
  have hadd : low (rotateLeft (sum (decode block) r op) op.s + r.get op.rb)
      = (r.map low).get op.rb
        + low (rotateLeft (sum (decode block) r op) op.s) := by
    rw [Regs.get_map, UInt32.add_comm]
    exact UInt64.toUInt32_add ..
  rw [← low_rotateLeft_iff _ hpos hs, low_sum]
  unfold expand Op.exec
  rw [Regs.map_set, Regs.set_inj, hadd]
  exact UInt32.add_right_inj _

/-- The macro calls are the operations of RFC 1321. -/
theorem macroCalls_eq : macroCalls = Rfc1321.ops := rfl

theorem shift_of_mem : ∀ op ∈ macroCalls, 0 < op.s ∧ op.s < 32 := by
  decide

-- ============================================================== one block

/-- The registers are in the low halves those of RFC 1321 after each of
the 64 operations on a block. -/
def Tracked (m : MagicNum) (w : Regs UInt32) (block : Str) : Prop :=
  ∀ k ≤ 64, (after m block k).map low = Rfc1321.after w block k

/-- Each of the 64 sums of a block is settled. -/
def Clean (m : MagicNum) (block : Str) : Prop :=
  ∀ k (h : k < macroCalls.length),
    Settled (sum (decode block) (after m block k) macroCalls[k])
      macroCalls[k].s

/-- On a block the code follows RFC 1321 through all registers exactly
when each of its sums is settled. -/
theorem tracked_iff (m : MagicNum) (block : Str) :
    Tracked m m.low block ↔ Clean m block :=
  follows_iff (fun r op hop =>
    low_expand_iff block r (shift_of_mem op hop).1 (shift_of_mem op hop).2) rfl

/-- What is added to the chaining state is then the compression. -/
theorem low_transformers {m : MagicNum} {block : Str} (h : Clean m block) :
    (transformers m block).low = Rfc1321.compress m.low block := by
  have hlast := (tracked_iff m block).mpr h 64 (Nat.le_refl 64)
  unfold transformers Rfc1321.compress
  rw [← hlast]
  unfold MagicNum.low Regs.zipWith Regs.map low
  simp only [UInt64.toUInt32_add]

-- ================================================================== a run

/-- When the block function is the compression of RFC 1321. For every
chaining state and any number of successive blocks: the code agrees with
RFC 1321 in the low halves of all four words, after each of the 64
operations on each block and at the end, exactly when at each of them
the bits that the right shift of `ROTATE_LEFT` brings into the low half
of the sum are set there already. -/
theorem transformers_iff (m : MagicNum) (blocks : List Str) :
    ((∀ i (h : i < blocks.length),
        Tracked ((blocks.take i).foldl transformers m)
          ((blocks.take i).foldl Rfc1321.compress m.low) blocks[i])
      ∧ (blocks.foldl transformers m).low
        = blocks.foldl Rfc1321.compress m.low)
      ↔ ∀ i (h : i < blocks.length),
        Clean ((blocks.take i).foldl transformers m) blocks[i] := by
  constructor
  · rintro ⟨htracked, -⟩ i hi
    -- after no operation the registers are the chaining states
    have hstart : ((blocks.take i).foldl transformers m).low
        = (blocks.take i).foldl Rfc1321.compress m.low :=
      htracked i hi 0 (Nat.zero_le 64)
    apply (tracked_iff _ _).mp
    rw [hstart]
    exact htracked i hi
  · intro hclean
    have hfollows : Follows transformers Rfc1321.compress MagicNum.low m
        m.low blocks :=
      Each.follows hclean fun _ _ => low_transformers
    refine ⟨fun i hi => ?_, hfollows.foldl_eq⟩
    rw [← hfollows i (Nat.le_of_lt hi)]
    exact (tracked_iff _ _).mpr (hclean i hi)

/-- The one block of the empty message, padded. -/
def emptyBlock : Str := 0x80 :: List.replicate 63 0

/-- Its compression from the initial state is not that of RFC 1321. -/
theorem empty_not_compressed :
    (transformers .start emptyBlock).low
      ≠ Rfc1321.compress MagicNum.start.low emptyBlock := by
  decide +kernel

end TrashyServer.Digest
