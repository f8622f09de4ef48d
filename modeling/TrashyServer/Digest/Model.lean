/-
The message digest (`MD5`, src/tool_util.h and src/tool_util.cpp): how
its input is buffered and counted and what the block function is given.

The block function `transformers` is a parameter, of the chaining state
and the 64 bytes its argument points at; `fed` records these, in order,
from the last `reset` on, and no statement of the source reads it.

`ulong` and `size_t` are words of 64 bits. `__buff` is written in one
place only, up to its end (`Block.fill`); the constructor leaves it as
the object's memory is.

`update(std::fstream &)` is a loop controlled by `eof()`:
`updateFile n` is what it has come to after at most `n` rounds, `none`
where it is not over.
-/
import TrashyServer.Lib.Loop
import TrashyServer.Stream

namespace TrashyServer.Digest

-- ============================================================== the object

/-- An array of 64 bytes. -/
abbrev Block : Type := { b : Str // b.length = 64 }

/-- `_magic_num`. -/
structure MagicNum where
  m0 : UInt64
  m1 : UInt64
  m2 : UInt64
  m3 : UInt64
deriving DecidableEq

/-- `transformers`, by `_magic_num` and the block. -/
abbrev Transformers : Type := MagicNum → Str → MagicNum

/-- `MD5`. -/
structure Md5 where
  buff : Block
  digestBytes : Str
  magicNum : MagicNum
  count0 : UInt64
  count1 : UInt64
  finish : Bool
  fed : List Str

/-- The values `reset` starts from. -/
def MagicNum.start : MagicNum :=
  ⟨0x67452301, 0xefcdab89, 0x98badcfe, 0x10325476⟩

/-- `reset`. -/
def Md5.reset (s : Md5) : Md5 :=
  { s with finish := false, count0 := 0, count1 := 0,
           magicNum := .start, fed := [] }

/-- One call of `transformers`. -/
def Md5.transform (T : Transformers) (s : Md5) (block : Str) : Md5 :=
  { s with magicNum := T s.magicNum block, fed := s.fed ++ [block] }

-- ================================================================= update

/-- `(_count[0] >> 3) & 0x3f`. -/
def Md5.index (s : Md5) : Nat := ((s.count0 >>> 3) &&& 0x3f).toNat

theorem Md5.index_lt (s : Md5) : s.index < 64 := by
  unfold index
  have h := UInt64.toNat_and (s.count0 >>> 3) 0x3f
  have hle := Nat.and_le_right (n := (s.count0 >>> 3).toNat) (m := 0x3f)
  rw [h]
  exact Nat.lt_of_le_of_lt hle (Nat.lt_succ_self 63)

theorem length_fill {b input : Str} {index : Nat} (hb : b.length = 64)
    (hindex : index < 64) (h : 64 - index ≤ input.length) :
    (b.take index ++ input.take (64 - index)).length = 64 := by
  rw [List.length_append, List.length_take, List.length_take, hb]
  omega

/-- `memcpy(&__buff[index], in, 64 - index)`. -/
def Block.fill (b : Block) (input : Str) (index : Nat) (hindex : index < 64)
    (h : 64 - index ≤ input.length) : Block :=
  ⟨b.val.take index ++ input.take (64 - index), length_fill b.property hindex h⟩

/-- `for(i = …; (i + 63) < len; i += 64)`, with `n` rounds to go. -/
def Md5.updateLoop (T : Transformers) (input : Str) : Nat → Nat → Md5 → Md5
  | 0, _, s => s
  | n + 1, i, s =>
      if i + 63 < input.length then
        updateLoop T input n (i + 64) (s.transform T ((input.drop i).take 64))
      else s

/-- The count of `update`, in bits. -/
def Md5.count (s : Md5) (len : Nat) : Md5 :=
  let bits : UInt64 := UInt64.ofNat len <<< 3
  let count0 := s.count0 + bits
  let carried := if count0 < bits then s.count1 + 1 else s.count1
  { s with count0 := count0, count1 := carried + UInt64.ofNat len >>> 29 }

/-- `update(const byte_t *, size_t)`. -/
def Md5.update (T : Transformers) (s : Md5) (input : Str) : Md5 :=
  let s' := { s with finish := false }.count input.length
  if h : 64 - s.index ≤ input.length then
    let buff := Block.fill s.buff input s.index s.index_lt h
    updateLoop T input input.length (64 - s.index)
      ({ s' with buff := buff }.transform T buff.val)
  else s'

/-- The variables of `update(std::fstream &)`. -/
structure Reading where
  inFile : FileStream
  md5 : Md5

/-- The condition of its loop. -/
def Reading.more (r : Reading) : Bool := !r.inFile.eof

/-- The body of its loop. -/
def Reading.body (T : Transformers) (r : Reading) : Except Fault Reading :=
  let (inFile, buffer) := r.inFile.read 1024
  if 0 < buffer.length then .ok ⟨inFile, r.md5.update T buffer⟩
  else .ok ⟨inFile, r.md5⟩

/-- `update(std::fstream &)`, at most `n` times round its loop. -/
def Md5.updateFile (T : Transformers) (n : Nat) (inFile : FileStream)
    (s : Md5) : Option (Except Fault Md5) :=
  if inFile.not then some (.ok s)
  else
    (Loop.rounds Reading.more (Reading.body T) n ⟨inFile, s⟩).map
      (·.map Reading.md5)

-- ================================================================= digest

/-- The four bytes of a word that `encode` keeps. -/
def encodeWord (w : UInt64) : Str :=
  [(w &&& 0xff).toUInt8, ((w >>> 8) &&& 0xff).toUInt8,
    ((w >>> 16) &&& 0xff).toUInt8, ((w >>> 24) &&& 0xff).toUInt8]

/-- `encode`, of all the words handed to it. -/
def encode (words : List UInt64) : Str := words.flatMap encodeWord

/-- The loop of `encode(in, out, len)` at the indices `i` and `j`, with
`n` rounds to go: what it stores in `out`. -/
def encodeLoop (words : List UInt64) (len : Nat) :
    Nat → Nat → Nat → Except Fault Str
  | 0, _, j => if j < len then .error .diverges else .ok []
  | n + 1, i, j =>
      if j < len then do
        let w ← vectorAt words i
        let out ← encodeLoop words len n (i + 1) (j + 4)
        .ok (encodeWord w ++ out)
      else .ok []

/-- `encode(in, out, len)`. -/
def encodeBytes (words : List UInt64) (len : Nat) : Except Fault Str :=
  encodeLoop words len len 0 0

/-- `padding`. -/
def padding : Str := 0x80 :: List.replicate 63 0

/-- `pad_len`, for a residue of so many bytes. -/
def padLen (index : Nat) : Nat :=
  if index < 56 then 56 - index else 120 - index

/-- `final`. -/
def Md5.final (T : Transformers) (s : Md5) : Md5 :=
  let bits := encode [s.count0, s.count1]
  let s' := (s.update T (padding.take (padLen s.index))).update T bits
  { s' with
    digestBytes := encode
      [s'.magicNum.m0, s'.magicNum.m1, s'.magicNum.m2, s'.magicNum.m3]
    magicNum := s.magicNum, count0 := s.count0, count1 := s.count1 }

/-- `digest`: the object afterwards, whose `digestBytes` it returns. -/
def Md5.digest (T : Transformers) (s : Md5) : Md5 :=
  if s.finish then s else { s with finish := true }.final T

-- ================================================================== calls

/-- A call of `update`, on a range of bytes or on a file that can be read
to its end. -/
inductive Call
  | range (input : Str)
  | file (content : Str)

/-- One call, at most `n` times round the loop. -/
def Md5.call (T : Transformers) (n : Nat) (s : Md5) :
    Call → Option (Except Fault Md5)
  | .range input => some (.ok (s.update T input))
  | .file content => s.updateFile T n (.fresh content .endOfFile)

/-- The calls one after the other. -/
def Md5.calls (T : Transformers) (n : Nat) :
    List Call → Md5 → Option (Except Fault Md5)
  | [], s => some (.ok s)
  | c :: cs, s =>
      match s.call T n c with
      | some (.ok s') => calls T n cs s'
      | other => other

-- ============================================================== questions

/-- `hex`. -/
def hex : Str := bytes "0123456789abcdef"

/-- `bytes_to_string`. -/
def bytesToString (input : Str) : Str :=
  input.flatMap fun t => [hex.getD (t.toNat / 16) 0, hex.getD (t.toNat % 16) 0]

/-- `to_string`: what it returns, and the object afterwards. -/
def Md5.toString (T : Transformers) (s : Md5) : Str × Md5 :=
  (bytesToString ((s.digest T).digestBytes.take 16), s.digest T)

/-- A call of `update`, or a question for the digest. -/
inductive Event
  | update (c : Call)
  | digest
  | toString

/-- An object that has been asked. What `final` puts back is the chaining
state, so the record of what went into it goes back as well. -/
def Md5.asked (s s' : Md5) : Md5 := { s' with fed := s.fed }

/-- The events one after the other. -/
def Md5.events (T : Transformers) (n : Nat) :
    List Event → Md5 → Option (Except Fault Md5)
  | [], s => some (.ok s)
  | .update c :: es, s =>
      match s.call T n c with
      | some (.ok s') => events T n es s'
      | other => other
  | .digest :: es, s => events T n es (s.asked (s.digest T))
  | .toString :: es, s => events T n es (s.asked (s.toString T).2)

end TrashyServer.Digest
