/-
The block function of the digest (`MD5::transformers`, `MD5::decode` and
the macros of src/tool_util.h).

`ulong` is a word of 64 bits, so a macro adds and rotates in 64 bits
what was written for 32. `in[j] << n` is a shift of an `int`: the value
of a byte from 0x80 on shifted by 24 is negative, and the cast to
`ulong` extends its sign.

A call of `FF`, `GG`, `HH` or `II` is an `Op` (its macro, the registers
in the order of the call, the index into `x`, the shift and the
constant), and `Regs.expand` is what the macro expands to.
-/
import TrashyServer.Lib.Rfc1321
import TrashyServer.Digest.Model

namespace TrashyServer.Digest

open Rfc1321 (Aux Op Reg Regs)

-- ============================================================= the macros

def F (x y z : UInt64) : UInt64 := (x &&& y) ||| (~~~x &&& z)
def G (x y z : UInt64) : UInt64 := (x &&& z) ||| (y &&& ~~~z)
def H (x y z : UInt64) : UInt64 := x ^^^ y ^^^ z
def I (x y z : UInt64) : UInt64 := y ^^^ (x ||| ~~~z)

/-- The first macro inside another. -/
def aux : Aux → UInt64 → UInt64 → UInt64 → UInt64
  | .F => F
  | .G => G
  | .H => H
  | .I => I

/-- `ROTATE_LEFT`. -/
def rotateLeft (x : UInt64) (n : Nat) : UInt64 :=
  (x <<< UInt64.ofNat n) ||| (x >>> UInt64.ofNat (32 - n))

def S11 : Nat := 7
def S12 : Nat := 12
def S13 : Nat := 17
def S14 : Nat := 22
def S21 : Nat := 5
def S22 : Nat := 9
def S23 : Nat := 14
def S24 : Nat := 20
def S31 : Nat := 4
def S32 : Nat := 11
def S33 : Nat := 16
def S34 : Nat := 23
def S41 : Nat := 6
def S42 : Nat := 10
def S43 : Nat := 15
def S44 : Nat := 21

/-- `FF`. -/
def FF : Reg → Reg → Reg → Reg → Nat → Nat → Nat → Op := Op.mk .F

/-- `GG`. -/
def GG : Reg → Reg → Reg → Reg → Nat → Nat → Nat → Op := Op.mk .G

/-- `HH`. -/
def HH : Reg → Reg → Reg → Reg → Nat → Nat → Nat → Op := Op.mk .H

/-- `II`. -/
def II : Reg → Reg → Reg → Reg → Nat → Nat → Nat → Op := Op.mk .I

/-- The sum a macro rotates: `a` after its first statement. -/
def sum (x : List UInt64) (r : Regs UInt64) (op : Op) : UInt64 :=
  r.get op.ra + (aux op.aux (r.get op.rb) (r.get op.rc) (r.get op.rd)
    + x.getD op.k 0 + UInt64.ofNat op.t)

/-- The three statements of a macro. -/
def expand (x : List UInt64) (r : Regs UInt64) (op : Op) : Regs UInt64 :=
  r.set op.ra (rotateLeft (sum x r op) op.s + r.get op.rb)

-- =========================================================== transformers

/-- `static_cast<ulong>(b << n)`. -/
def shifted (b : UInt8) (n : UInt32) : UInt64 :=
  ((b.toUInt32 <<< n).toInt32.toInt64).toUInt64

/-- One word of `decode`. -/
def decodeWord (b₀ b₁ b₂ b₃ : UInt8) : UInt64 :=
  b₀.toUInt64 ||| shifted b₁ 8 ||| shifted b₂ 16 ||| shifted b₃ 24

/-- `decode`, of the 64 bytes of a block. -/
def decode (block : Str) : List UInt64 :=
  (List.range 16).map fun i =>
    decodeWord (block.getD (4 * i) 0) (block.getD (4 * i + 1) 0)
      (block.getD (4 * i + 2) 0) (block.getD (4 * i + 3) 0)

/-- The loop of `decode(in, out, len)` at the index `j`, with `n` rounds
to go: what it stores in `out`, whose index goes up with `j`. -/
def decodeLoop (input : Str) (len : Nat) :
    Nat → Nat → Except Fault (List UInt64)
  | 0, j => if j < len then .error .diverges else .ok []
  | n + 1, j =>
      if j < len then do
        let b₀ ← vectorAt input j
        let b₁ ← vectorAt input (j + 1)
        let b₂ ← vectorAt input (j + 2)
        let b₃ ← vectorAt input (j + 3)
        let out ← decodeLoop input len n (j + 4)
        .ok (decodeWord b₀ b₁ b₂ b₃ :: out)
      else .ok []

/-- `decode(in, out, len)`. -/
def decodeBytes (input : Str) (len : Nat) : Except Fault (List UInt64) :=
  decodeLoop input len len 0

/-- The macro calls of `transformers`. -/
def macroCalls : List Op := [
  FF .a .b .c .d 0 S11 0xd76aa478,
  FF .d .a .b .c 1 S12 0xe8c7b756,
  FF .c .d .a .b 2 S13 0x242070db,
  FF .b .c .d .a 3 S14 0xc1bdceee,
  FF .a .b .c .d 4 S11 0xf57c0faf,
  FF .d .a .b .c 5 S12 0x4787c62a,
  FF .c .d .a .b 6 S13 0xa8304613,
  FF .b .c .d .a 7 S14 0xfd469501,
  FF .a .b .c .d 8 S11 0x698098d8,
  FF .d .a .b .c 9 S12 0x8b44f7af,
  FF .c .d .a .b 10 S13 0xffff5bb1,
  FF .b .c .d .a 11 S14 0x895cd7be,
  FF .a .b .c .d 12 S11 0x6b901122,
  FF .d .a .b .c 13 S12 0xfd987193,
  FF .c .d .a .b 14 S13 0xa679438e,
  FF .b .c .d .a 15 S14 0x49b40821,
  GG .a .b .c .d 1 S21 0xf61e2562,
  GG .d .a .b .c 6 S22 0xc040b340,
  GG .c .d .a .b 11 S23 0x265e5a51,
  GG .b .c .d .a 0 S24 0xe9b6c7aa,
  GG .a .b .c .d 5 S21 0xd62f105d,
  GG .d .a .b .c 10 S22 0x2441453,
  GG .c .d .a .b 15 S23 0xd8a1e681,
  GG .b .c .d .a 4 S24 0xe7d3fbc8,
  GG .a .b .c .d 9 S21 0x21e1cde6,
  GG .d .a .b .c 14 S22 0xc33707d6,
  GG .c .d .a .b 3 S23 0xf4d50d87,
  GG .b .c .d .a 8 S24 0x455a14ed,
  GG .a .b .c .d 13 S21 0xa9e3e905,
  GG .d .a .b .c 2 S22 0xfcefa3f8,
  GG .c .d .a .b 7 S23 0x676f02d9,
  GG .b .c .d .a 12 S24 0x8d2a4c8a,
  HH .a .b .c .d 5 S31 0xfffa3942,
  HH .d .a .b .c 8 S32 0x8771f681,
  HH .c .d .a .b 11 S33 0x6d9d6122,
  HH .b .c .d .a 14 S34 0xfde5380c,
  HH .a .b .c .d 1 S31 0xa4beea44,
  HH .d .a .b .c 4 S32 0x4bdecfa9,
  HH .c .d .a .b 7 S33 0xf6bb4b60,
  HH .b .c .d .a 10 S34 0xbebfbc70,
  HH .a .b .c .d 13 S31 0x289b7ec6,
  HH .d .a .b .c 0 S32 0xeaa127fa,
  HH .c .d .a .b 3 S33 0xd4ef3085,
  HH .b .c .d .a 6 S34 0x4881d05,
  HH .a .b .c .d 9 S31 0xd9d4d039,
  HH .d .a .b .c 12 S32 0xe6db99e5,
  HH .c .d .a .b 15 S33 0x1fa27cf8,
  HH .b .c .d .a 2 S34 0xc4ac5665,
  II .a .b .c .d 0 S41 0xf4292244,
  II .d .a .b .c 7 S42 0x432aff97,
  II .c .d .a .b 14 S43 0xab9423a7,
  II .b .c .d .a 5 S44 0xfc93a039,
  II .a .b .c .d 12 S41 0x655b59c3,
  II .d .a .b .c 3 S42 0x8f0ccc92,
  II .c .d .a .b 10 S43 0xffeff47d,
  II .b .c .d .a 1 S44 0x85845dd1,
  II .a .b .c .d 8 S41 0x6fa87e4f,
  II .d .a .b .c 15 S42 0xfe2ce6e0,
  II .c .d .a .b 6 S43 0xa3014314,
  II .b .c .d .a 13 S44 0x4e0811a1,
  II .a .b .c .d 4 S41 0xf7537e82,
  II .d .a .b .c 11 S42 0xbd3af235,
  II .c .d .a .b 2 S43 0x2ad7d2bb,
  II .b .c .d .a 9 S44 0xeb86d391]

/-- The registers after the first `k` macro calls on a block. -/
def after (m : MagicNum) (block : Str) (k : Nat) : Regs UInt64 :=
  (macroCalls.take k).foldl (expand (decode block)) ⟨m.m0, m.m1, m.m2, m.m3⟩

/-- `transformers`. -/
def transformers : Transformers := fun m block =>
  let r := after m block 64
  ⟨m.m0 + r.a, m.m1 + r.b, m.m2 + r.c, m.m3 + r.d⟩

end TrashyServer.Digest
