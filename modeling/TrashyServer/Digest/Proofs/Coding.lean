/-
What `encode` and `decode` undo of one another.

Either loop goes through its input in groups (`encodeLoop_eq`,
`decodeLoop_eq`): a word to its four low bytes, four bytes to the word
they stand for, with the sign of the last one extended
(`decodeWord_toBitVec`). The bytes of that word are the four again,
whatever their sign (`encodeWord_decodeWord`); a word of 32 bits comes
back from its bytes exactly if it is below 2^31 (`wide_iff`).
-/
import TrashyServer.Digest.Proofs.Feed
import TrashyServer.Digest.Proofs.Transform

namespace TrashyServer.Digest

open LittleEndian (value value_inj)

-- ================================================================= the loops

/-- The words of a text, four bytes each. -/
def decodeAll : Str → List UInt64
  | b₀ :: b₁ :: b₂ :: b₃ :: s => decodeWord b₀ b₁ b₂ b₃ :: decodeAll s
  | _ => []

/-- Less than four bytes are no whole number of words. -/
theorem eq_nil_of_short {s : Str} (hfour : 4 ∣ s.length)
    (h : ∀ b₀ b₁ b₂ b₃ t, s = b₀ :: b₁ :: b₂ :: b₃ :: t → False) : s = [] := by
  match s, h with
  | [], _ => rfl
  | [_], _ => simp at hfour
  | [_, _], _ => simp at hfour
  | [_, _, _], _ => simp at hfour
  | b₀ :: b₁ :: b₂ :: b₃ :: t, h => exact absurd rfl (h b₀ b₁ b₂ b₃ t)

/-- The loop of `decode`, from behind the part it is through with. -/
theorem decodeLoop_eq {s : Str} :
    ∀ {a : Str} {n : Nat}, s.length ≤ 4 * n → 4 ∣ s.length →
      decodeLoop (a ++ s) (a ++ s).length n a.length = .ok (decodeAll s) := by
  induction s using decodeAll.induct with
  | case1 b₀ b₁ b₂ b₃ s ih =>
      intro a n hn hfour
      simp only [List.length_cons] at hn hfour
      have hlen : (a ++ b₀ :: b₁ :: b₂ :: b₃ :: s).length
          = a.length + 4 + s.length := by
        simp only [List.length_append, List.length_cons]
        omega
      cases n with
      | zero => cases hn
      | succ n =>
          have hrest : s.length ≤ 4 * n := by omega
          have hstep := ih (a := a ++ [b₀, b₁, b₂, b₃]) hrest (by omega)
          have hjoin : a ++ [b₀, b₁, b₂, b₃] ++ s
              = a ++ b₀ :: b₁ :: b₂ :: b₃ :: s := by simp
          have hnext : (a ++ [b₀, b₁, b₂, b₃]).length = a.length + 4 := by simp
          have hfirst : vectorAt (a ++ b₀ :: b₁ :: b₂ :: b₃ :: s) a.length
              = .ok b₀ :=
            vectorAt_append a 0 (b₀ :: b₁ :: b₂ :: b₃ :: s)
          rw [hjoin, hnext] at hstep
          unfold decodeLoop
          rw [if_pos (by omega), hfirst, vectorAt_append, vectorAt_append,
            vectorAt_append, hstep]
          rfl
  | case2 s h =>
      intro a n _ hfour
      have hnil : s = [] := eq_nil_of_short hfour h
      have hstop : ¬ a.length < a.length := Nat.lt_irrefl _
      rw [hnil, List.append_nil]
      cases n with
      | zero => exact if_neg hstop
      | succ n => exact if_neg hstop

/-- The loop of `encode`, from behind the words it is through with. -/
theorem encodeLoop_eq {ws : List UInt64} :
    ∀ {a : List UInt64} {n : Nat}, ws.length ≤ n →
      encodeLoop (a ++ ws) (4 * (a ++ ws).length) n a.length (4 * a.length)
        = .ok (encode ws) := by
  induction ws with
  | nil =>
      intro a n _
      have hstop : ¬ 4 * a.length < 4 * a.length := Nat.lt_irrefl _
      rw [List.append_nil]
      cases n with
      | zero => exact if_neg hstop
      | succ n => exact if_neg hstop
  | cons w ws ih =>
      intro a n hn
      have hlen : (a ++ w :: ws).length = a.length + 1 + ws.length := by
        simp only [List.length_append, List.length_cons]
        omega
      cases n with
      | zero => cases hn
      | succ n =>
          have hstep := ih (a := a ++ [w]) (Nat.le_of_succ_le_succ hn)
          have hjoin : a ++ [w] ++ ws = a ++ w :: ws := by simp
          have hnext : (a ++ [w]).length = a.length + 1 := by simp
          have hfirst : vectorAt (a ++ w :: ws) a.length = .ok w :=
            vectorAt_append a 0 (w :: ws)
          rw [hjoin, hnext, Nat.mul_add] at hstep
          unfold encodeLoop
          rw [if_pos (by omega), hfirst]
          show (encodeLoop _ _ n (a.length + 1) (4 * a.length + 4 * 1) >>= _) = _
          rw [hstep]
          rfl

/-- `decode` of a whole number of words. -/
theorem decodeBytes_eq {input : Str} (h : 4 ∣ input.length) :
    decodeBytes input input.length = .ok (decodeAll input) :=
  decodeLoop_eq (a := []) (by omega) h

/-- `encode` of as many bytes as the words have. -/
theorem encodeBytes_eq (words : List UInt64) :
    encodeBytes words (4 * words.length) = .ok (encode words) :=
  encodeLoop_eq (a := []) (by omega)

/-- The words by their number. -/
theorem decodeAll_eq_map {s : Str} (h : 4 ∣ s.length) :
    decodeAll s = (List.range (s.length / 4)).map fun i =>
      decodeWord (s.getD (4 * i) 0) (s.getD (4 * i + 1) 0)
        (s.getD (4 * i + 2) 0) (s.getD (4 * i + 3) 0) := by
  induction s using decodeAll.induct with
  | case1 b₀ b₁ b₂ b₃ s ih =>
      simp only [List.length_cons] at h
      have hcount : (b₀ :: b₁ :: b₂ :: b₃ :: s).length / 4
          = s.length / 4 + 1 := by
        simp only [List.length_cons]
        omega
      have hrest : 4 ∣ s.length := by omega
      rw [hcount, List.range_succ_eq_map, List.map_cons, List.map_map, decodeAll,
        ih hrest]
      rfl
  | case2 s hshort =>
      have hnil : s = [] := eq_nil_of_short h hshort
      rw [hnil]
      rfl

/-- The 64 bytes of a block. -/
theorem decodeBytes_block {block : Str} (h : block.length = 64) :
    decodeBytes block 64 = .ok (decode block) := by
  have hfour : 4 ∣ block.length := by omega
  have hall := decodeBytes_eq hfour
  rw [decodeAll_eq_map hfour, h] at hall
  exact hall

-- ================================================================== one word

/-- `decode` extends the sign of the word. -/
theorem decodeWord_toBitVec (b₀ b₁ b₂ b₃ : UInt8) :
    (decodeWord b₀ b₁ b₂ b₃).toBitVec
      = (Rfc1321.word b₀ b₁ b₂ b₃).toBitVec.signExtend 64 := by
  have hpos : b₀.toUInt32.toBitVec.msb = false := by
    have hlt := b₀.toNat_lt
    rw [BitVec.msb_eq_false_iff_two_mul_lt]
    show 2 * b₀.toNat < 2 ^ 32
    omega
  have hfirst : b₀.toUInt64.toBitVec = b₀.toUInt32.toBitVec.signExtend 64 := by
    rw [BitVec.signExtend_eq_setWidth_of_msb_false hpos]
    simp
  have hshift : ∀ (b : UInt8) (n : UInt32), (shifted b n).toBitVec
      = (b.toUInt32 <<< n).toBitVec.signExtend 64 := fun _ _ => rfl
  unfold decodeWord Rfc1321.word
  simp only [UInt64.toBitVec_or, UInt32.toBitVec_or, BitVec.signExtend_or,
    hfirst, hshift]

/-- `encode` keeps the low half of a word. -/
theorem value_encodeWord (w : UInt64) :
    value (encodeWord w) = w.toNat % 2 ^ 32 := by
  have hbyte : ∀ x : Nat, (UInt8.ofNat x).toNat = x % 256 := fun x =>
    UInt8.toNat_ofNat'
  rw [encodeWord_eq]
  unfold littleEndian
  simp [List.range_succ, hbyte]
  omega

/-- Four bytes come back from the word they are decoded to. -/
theorem encodeWord_decodeWord (b₀ b₁ b₂ b₃ : UInt8) :
    encodeWord (decodeWord b₀ b₁ b₂ b₃) = [b₀, b₁, b₂, b₃] := by
  have hlen : (encodeWord (decodeWord b₀ b₁ b₂ b₃)).length
      = [b₀, b₁, b₂, b₃].length := rfl
  apply value_inj hlen
  rw [value_encodeWord, ← Rfc1321.toNat_word, ← low_decodeWord]
  exact (UInt64.toNat_toUInt32 _).symm

/-- A word of 32 bits comes back from its bytes exactly if its sign bit
is clear. -/
theorem wide_iff {w : UInt32} {b₀ b₁ b₂ b₃ : UInt8}
    (h : encodeWord w.toUInt64 = [b₀, b₁, b₂, b₃]) :
    decodeWord b₀ b₁ b₂ b₃ = w.toUInt64 ↔ w.toNat < 2 ^ 31 := by
  have hword : Rfc1321.word b₀ b₁ b₂ b₃ = w := by
    apply UInt32.toNat_inj.mp
    rw [Rfc1321.toNat_word, ← h, value_encodeWord, UInt32.toNat_toUInt64]
    exact Nat.mod_eq_of_lt w.toNat_lt
  have hwide : w.toUInt64.toBitVec = w.toBitVec.setWidth 64 := rfl
  have hmsb : w.toBitVec.msb = false ↔ w.toNat < 2 ^ 31 := by
    rw [BitVec.msb_eq_false_iff_two_mul_lt]
    show 2 * w.toNat < 2 ^ 32 ↔ _
    omega
  rw [← hmsb, ← UInt64.toBitVec_inj, decodeWord_toBitVec, hword, hwide]
  constructor
  · intro hsame
    have hnat := congrArg BitVec.toNat hsame
    rw [BitVec.toNat_signExtend] at hnat
    cases hsign : w.toBitVec.msb with
    | false => rfl
    | true =>
        rw [hsign, if_pos rfl] at hnat
        omega
  · exact BitVec.signExtend_eq_setWidth_of_msb_false

-- ============================================================ the round trips

/-- Words of 32 bits in words of 64. -/
def wide (ws : List UInt32) : List UInt64 := ws.map UInt32.toUInt64

theorem length_encode (words : List UInt64) :
    (encode words).length = 4 * words.length := by
  induction words with
  | nil => rfl
  | cons w words ih =>
      have hcons : encode (w :: words) = encodeWord w ++ encode words := rfl
      have hfour : (encodeWord w).length = 4 := rfl
      rw [hcons, List.length_append, List.length_cons, ih, hfour]
      omega

/-- The words come back exactly if each of them does. -/
theorem decodeAll_encode_iff (ws : List UInt32) :
    decodeAll (encode (wide ws)) = wide ws ↔ ∀ w ∈ ws, w.toNat < 2 ^ 31 := by
  induction ws with
  | nil => simp [wide, encode, decodeAll]
  | cons w ws ih =>
      obtain ⟨b₀, b₁, b₂, b₃, hbytes⟩ : ∃ b₀ b₁ b₂ b₃,
          encodeWord w.toUInt64 = [b₀, b₁, b₂, b₃] := ⟨_, _, _, _, rfl⟩
      have hwide : wide (w :: ws) = w.toUInt64 :: wide ws := rfl
      have hcons : encode (w.toUInt64 :: wide ws)
          = b₀ :: b₁ :: b₂ :: b₃ :: encode (wide ws) := by
        show encodeWord w.toUInt64 ++ encode (wide ws) = _
        rw [hbytes]
        rfl
      rw [hwide, hcons, decodeAll, List.cons_eq_cons, wide_iff hbytes, ih,
        List.forall_mem_cons]

/-- Bytes always come back. -/
theorem encode_decodeAll {s : Str} (h : 4 ∣ s.length) :
    encode (decodeAll s) = s := by
  induction s using decodeAll.induct with
  | case1 b₀ b₁ b₂ b₃ s ih =>
      simp only [List.length_cons] at h
      have hrest : 4 ∣ s.length := by omega
      have hcons : encode (decodeAll (b₀ :: b₁ :: b₂ :: b₃ :: s))
          = encodeWord (decodeWord b₀ b₁ b₂ b₃) ++ encode (decodeAll s) := rfl
      rw [hcons, encodeWord_decodeWord, ih hrest]
      rfl
  | case2 s hshort =>
      have hnil : s = [] := eq_nil_of_short h hshort
      rw [hnil]
      rfl

/-- Bytes that make a whole number of words. -/
abbrev WordBytes : Type := { s : Str // 4 ∣ s.length }

/-- `decode` applied to the bytes of these words gives them back. -/
def WordsBack (ws : List UInt32) : Prop :=
  ∃ b, encodeBytes (wide ws) (4 * (wide ws).length) = .ok b
    ∧ decodeBytes b b.length = .ok (wide ws)

/-- `encode` applied to the words of these bytes gives them back. -/
def BytesBack (s : WordBytes) : Prop :=
  ∃ words, decodeBytes s.1 s.1.length = .ok words
    ∧ encodeBytes words s.1.length = .ok s.1

theorem wordsBack_iff (ws : List UInt32) :
    WordsBack ws ↔ ∀ w ∈ ws, w.toNat < 2 ^ 31 := by
  have hencode := encodeBytes_eq (wide ws)
  have hfour : 4 ∣ (encode (wide ws)).length := by
    rw [length_encode]
    exact Nat.dvd_mul_right ..
  have hdecode := decodeBytes_eq hfour
  rw [← decodeAll_encode_iff]
  unfold WordsBack
  constructor
  · intro h
    obtain ⟨b, hb, hwords⟩ := h
    rw [hencode] at hb
    cases hb
    rw [hdecode] at hwords
    exact Except.ok.inj hwords
  · intro h
    exact ⟨_, hencode, by rw [hdecode, h]⟩

theorem bytesBack (s : WordBytes) : BytesBack s := by
  have hback := encode_decodeAll s.2
  have hlen : s.1.length = 4 * (decodeAll s.1).length := by
    conv => lhs; rw [← hback]
    exact length_encode _
  refine ⟨_, decodeBytes_eq s.2, ?_⟩
  rw [hlen, encodeBytes_eq, hback]

/-- When the codings undo one another. For every list of words below
2^32 and every byte sequence of a whole number of words: `decode` gives
the words back that `encode` was given exactly when none of them is 2^31
or more, and `encode` always the bytes that `decode` was given. -/
theorem codings_iff (ws : List UInt32) (s : WordBytes) :
    (WordsBack ws ↔ ∀ w ∈ ws, w.toNat < 2 ^ 31) ∧ BytesBack s :=
  ⟨wordsBack_iff ws, bytesBack s⟩

/-- The word 2^31 comes back with its upper half set. -/
theorem sign_comes_back : ¬ WordsBack [0x80000000] := by
  intro h
  obtain ⟨b, hb, hwords⟩ := h
  have hbytes : encodeBytes (wide [0x80000000]) 4 = .ok [0, 0, 0, 0x80] := by
    decide
  have hword : decodeBytes [0, 0, 0, 0x80] 4
      = .ok [0xffffffff80000000] := by
    decide
  obtain rfl := Except.ok.inj (hbytes.symm.trans hb)
  have hsame := Except.ok.inj (hword.symm.trans hwords)
  exact absurd hsame (by decide)

end TrashyServer.Digest
