/-
Which blocks the digest gives to its block function, against those of
RFC 1321.

# The blocks of a message

The message is padded to a whole number of 64-byte blocks and ends with
its length in bits (`rfcBlocks`). It arrives in calls of `update`, and
the padding and the length are two calls more (`closing`). After any
calls the blocks of what has arrived are due, and what is left over,
less than a block, waits (`Blocks.rest`).

# What `update` does

A call completes blocks or it does not (`update_of_le`, `update_of_lt`).
When it does, the first of them is the first `index` bytes of `__buff`
with the call's own bytes behind; `__buff` is not written anywhere else.
The bytes a call leaves over are counted, and not kept. So a call hands
on the right blocks exactly when the bytes that wait happen to stand in
`__buff` already (`fed_update_iff`), and a whole computation is right
exactly when that is so at every call that completes a block
(`feeds_iff`).
-/
import TrashyServer.Lib.Blocks
import TrashyServer.Lib.Runs
import TrashyServer.Digest.Model

namespace TrashyServer.Digest

open Blocks (full rest)

variable {T : Transformers}

-- ===================================================== blocks, handed over

/-- The block function called on these blocks in turn. -/
def Md5.feed (T : Transformers) (s : Md5) (blocks : List Str) : Md5 :=
  blocks.foldl (Md5.transform T) s

theorem Md5.feed_cons (s : Md5) (block : Str) (blocks : List Str) :
    s.feed T (block :: blocks) = (s.transform T block).feed T blocks := rfl

/-- What calls of the block function leave of an object. -/
theorem Md5.feed_eq (s : Md5) (blocks : List Str) :
    s.feed T blocks = { s with
      magicNum := blocks.foldl T s.magicNum, fed := s.fed ++ blocks } := by
  induction blocks generalizing s with
  | nil =>
      show s = { s with magicNum := s.magicNum, fed := s.fed ++ [] }
      rw [List.append_nil]
  | cons block blocks ih =>
      rw [feed_cons, ih]
      unfold transform
      dsimp only
      rw [List.append_assoc]
      rfl

/-- The loop of `update` hands over the blocks of what it has not yet
taken. -/
theorem updateLoop_eq {input : Str} {n i : Nat} {s : Md5}
    (hn : input.length < i + 64 * (n + 1)) :
    s.updateLoop T input n i = s.feed T (full 64 (input.drop i)) := by
  induction n generalizing i s with
  | zero =>
      have hlen : (input.drop i).length < 64 := by
        rw [List.length_drop]
        omega
      rw [Blocks.full_of_lt hlen]
      rfl
  | succ n ih =>
      unfold Md5.updateLoop
      by_cases h : i + 63 < input.length
      · have hlen : 64 ≤ (input.drop i).length := by
          rw [List.length_drop]
          omega
        rw [if_pos h, ih (by omega), Blocks.full_of_le (by omega) hlen,
          List.drop_drop, Md5.feed_cons]
      · have hlen : (input.drop i).length < 64 := by
          rw [List.length_drop]
          omega
        rw [if_neg h, Blocks.full_of_lt hlen]
        rfl

-- ================================================================= update

/-- A call that completes a block. -/
theorem update_of_le {s : Md5} {input : Str}
    (h : 64 - s.index ≤ input.length) :
    s.update T input
      = ({ ({ s with finish := false }.count input.length) with
            buff := Block.fill s.buff input s.index s.index_lt h } : Md5).feed T
          ((s.buff.val.take s.index ++ input.take (64 - s.index))
            :: full 64 (input.drop (64 - s.index))) := by
  have hn : input.length < 64 - s.index + 64 * (input.length + 1) := by omega
  unfold Md5.update
  dsimp only
  rw [dif_pos h, updateLoop_eq hn]
  rfl

/-- A call that completes none. -/
theorem update_of_lt {s : Md5} {input : Str}
    (h : input.length < 64 - s.index) :
    s.update T input = { s with finish := false }.count input.length :=
  dif_neg (Nat.not_le.mpr h)

/-- The object has been given `m` since `reset`: it has counted it, and
handed over as many blocks as `m` has. -/
structure Tracks (T : Transformers) (s : Md5) (m : Str) : Prop where
  count0 : s.count0 = UInt64.ofNat (8 * m.length)
  fed : s.fed.length = m.length / 64
  magicNum : s.magicNum = s.fed.foldl T .start
  finish : s.finish = false

theorem tracks_reset (s : Md5) : Tracks T s.reset [] := ⟨rfl, rfl, rfl, rfl⟩

theorem ofNat_shiftLeft (n : Nat) :
    UInt64.ofNat n <<< 3 = UInt64.ofNat (8 * n) := by
  apply UInt64.toNat_inj.mp
  rw [UInt64.toNat_shiftLeft]
  simp [Nat.shiftLeft_eq]
  omega

/-- `index` is the number of bytes that wait. -/
theorem Tracks.index_eq {s : Md5} {m : Str} (h : Tracks T s m) :
    s.index = m.length % 64 := by
  have hmask : (0x3f : UInt64).toNat = 2 ^ 6 - 1 := rfl
  unfold Md5.index
  rw [h.count0, UInt64.toNat_and, UInt64.toNat_shiftRight, hmask,
    Nat.and_two_pow_sub_one_eq_mod]
  simp [Nat.shiftRight_eq_div_pow]
  omega

theorem count_count0 (s : Md5) (len : Nat) :
    (s.count len).count0 = s.count0 + UInt64.ofNat (8 * len) := by
  rw [← ofNat_shiftLeft]
  rfl

/-- A call is counted, and hands over as many blocks as are due. -/
theorem Tracks.update {s : Md5} {m : Str} (h : Tracks T s m) (u : Str) :
    Tracks T (s.update T u) (m ++ u) := by
  have hindex := h.index_eq
  have hcount : s.count0 + UInt64.ofNat (8 * u.length)
      = UInt64.ofNat (8 * (m ++ u).length) := by
    rw [h.count0, ← UInt64.ofNat_add, List.length_append, Nat.mul_add]
  by_cases hle : 64 - s.index ≤ u.length
  · rw [update_of_le hle, Md5.feed_eq]
    refine ⟨?_, ?_, ?_, rfl⟩
    · rw [← hcount]
      exact count_count0 _ _
    · show (s.fed ++ _ :: full 64 _).length = _
      rw [List.length_append, List.length_cons, Blocks.length_full,
        List.length_drop, List.length_append, h.fed]
      omega
    · show List.foldl T s.magicNum _ = List.foldl T _ (s.fed ++ _)
      rw [List.foldl_append, h.magicNum]
  · rw [update_of_lt (Nat.not_le.mp hle)]
    refine ⟨?_, ?_, h.magicNum, rfl⟩
    · rw [← hcount]
      exact count_count0 _ _
    · show s.fed.length = _
      rw [h.fed, List.length_append]
      omega

/-- Where the next call completes a block, the bytes that wait for it
stand in `__buff`. -/
def Ready (p : Md5 × Str) (u : Str) : Prop :=
  64 ≤ p.1.index + u.length → p.1.buff.val.take p.1.index = rest 64 p.2

/-- One call hands over the right blocks exactly when the bytes that
wait for it stand in `__buff`. -/
theorem fed_update_iff {s : Md5} {m : Str} (h : Tracks T s m) (u : Str) :
    (s.update T u).fed = full 64 (m ++ u)
      ↔ s.fed = full 64 m ∧ Ready (s, m) u := by
  have hindex := h.index_eq
  have hlt := s.index_lt
  have hrest : (rest 64 m).length = s.index := by
    rw [Blocks.length_rest, hindex]
  have hlen : s.fed.length = (full 64 m).length := by
    rw [h.fed, Blocks.length_full]
  rw [Blocks.full_append (by omega)]
  by_cases hle : 64 - s.index ≤ u.length
  · have hblock : 64 ≤ (rest 64 m ++ u).length := by
      rw [List.length_append, hrest]
      omega
    have htake : (rest 64 m ++ u).take 64
        = rest 64 m ++ u.take (64 - s.index) := by
      rw [List.take_append, hrest, List.take_of_length_le (by omega)]
    have hdrop : (rest 64 m ++ u).drop 64 = u.drop (64 - s.index) := by
      rw [List.drop_append, hrest, List.drop_of_length_le (by omega),
        List.nil_append]
    rw [update_of_le hle, Md5.feed_eq, Blocks.full_of_le (by omega) hblock,
      htake, hdrop]
    constructor
    · intro heq
      obtain ⟨hfed, hcons⟩ := List.append_inj heq hlen
      refine ⟨hfed, fun _ => ?_⟩
      exact List.append_cancel_right (List.cons.inj hcons).1
    · intro hboth
      obtain ⟨hfed, hready⟩ := hboth
      have hbuff : s.buff.val.take s.index = rest 64 m := hready (by
        show 64 ≤ s.index + u.length
        omega)
      show s.fed ++ _ = _
      rw [hfed, hbuff]
  · have hshort : (rest 64 m ++ u).length < 64 := by
      rw [List.length_append, hrest]
      omega
    rw [update_of_lt (Nat.not_le.mp hle), Blocks.full_of_lt hshort,
      List.append_nil]
    constructor
    · intro hfed
      refine ⟨hfed, fun hready => ?_⟩
      have hready' : 64 ≤ s.index + u.length := hready
      omega
    · intro hboth
      exact hboth.1

-- ================================================================ a run

/-- The object and all it has been given, after one more call. -/
def step (T : Transformers) (p : Md5 × Str) (u : Str) : Option (Md5 × Str) :=
  some (p.1.update T u, p.2 ++ u)

/-- Calls of `update` one after the other. -/
def Md5.updates (T : Transformers) (s : Md5) (us : List Str) : Md5 :=
  us.foldl (Md5.update T) s

theorem Tracks.updates {us : List Str} :
    ∀ {s : Md5} {m : Str}, Tracks T s m →
      Tracks T (s.updates T us) (m ++ us.flatten) := by
  induction us with
  | nil =>
      intro s m h
      rw [List.flatten_nil, List.append_nil]
      exact h
  | cons u us ih =>
      intro s m h
      rw [List.flatten_cons, ← List.append_assoc]
      exact ih (h.update u)

/-- Calls hand over the right blocks exactly when each of them finds the
bytes it needs in `__buff`. -/
theorem fed_updates_iff {us : List Str} :
    ∀ {s : Md5} {m : Str}, Tracks T s m →
      ((s.updates T us).fed = full 64 (m ++ us.flatten)
        ↔ s.fed = full 64 m ∧ Runs.Along (step T) Ready (s, m) us) := by
  induction us with
  | nil =>
      intro s m _
      rw [List.flatten_nil, List.append_nil]
      exact (and_iff_left trivial).symm
  | cons u us ih =>
      intro s m h
      have hmore : Runs.Along (step T) Ready (s, m) (u :: us)
          ↔ Ready (s, m) u
            ∧ Runs.Along (step T) Ready (s.update T u, m ++ u) us :=
        Runs.along_cons_iff us rfl
      rw [List.flatten_cons, ← List.append_assoc, hmore, ← and_assoc,
        ← fed_update_iff h u]
      exact ih (h.update u)

-- ================================================================= calls

/-- The bytes of a call. -/
def Call.bytes : Call → Str
  | .range input => input
  | .file content => content

/-- The ranges a call of `update` comes to: a file is read in pieces of
1024 bytes, and an empty piece is not passed on. -/
def Call.ranges : Call → List Str
  | .range input => [input]
  | .file content =>
      full 1024 content
        ++ if rest 1024 content = [] then [] else [rest 1024 content]

/-- All bytes of some calls. -/
def message (calls : List Call) : Str := calls.flatMap Call.bytes

theorem Call.flatten_ranges (c : Call) : c.ranges.flatten = c.bytes := by
  cases c with
  | range input => exact List.append_nil input
  | file content =>
      unfold ranges bytes
      rw [List.flatten_append]
      conv => rhs; rw [← Blocks.flatten_append_rest (by omega : 0 < 1024) content]
      split
      · next h => rw [h]; rfl
      · rw [List.flatten_cons, List.flatten_nil, List.append_nil]

/-- A round that reads a whole piece. -/
theorem body_of_le {content : Str} (h : 1024 ≤ content.length)
    (ending : Ending) (s : Md5) :
    Reading.body T ⟨.fresh content ending, s⟩
      = .ok ⟨.fresh (content.drop 1024) ending,
          s.update T (content.take 1024)⟩ := by
  have hpos : 0 < (content.take 1024).length := by
    rw [List.length_take]
    omega
  unfold Reading.body
  dsimp only
  rw [FileStream.read_of_le h]
  dsimp only
  rw [if_pos hpos]

/-- The round that meets what stands behind the file. -/
theorem body_of_lt {content : Str} (h : content.length < 1024)
    (ending : Ending) (s : Md5) :
    Reading.body T ⟨.fresh content ending, s⟩
      = .ok ⟨(FileStream.fresh content ending).runOut (ending = .endOfFile),
          s.updates T (Call.file content).ranges⟩ := by
  unfold Reading.body Call.ranges
  dsimp only
  rw [FileStream.read_of_lt h, Blocks.full_of_lt h, Blocks.rest_of_lt h]
  dsimp only
  by_cases hnil : content = []
  · rw [hnil]
    rfl
  · rw [if_pos (List.length_pos_iff.mpr hnil), if_neg hnil]
    rfl

/-- A file is read to its end. -/
theorem rounds_of_file (content : Str) :
    ∀ s : Md5, ∃ n f, Loop.rounds Reading.more (Reading.body T) n
        ⟨.fresh content .endOfFile, s⟩
      = some (.ok ⟨f, s.updates T (Call.file content).ranges⟩) := by
  have hpos : 0 < 1024 := Nat.succ_pos _
  induction content using Blocks.block_induction hpos with
  | short content h =>
      intro s
      exact ⟨1, _, (Loop.rounds_of_ok rfl (body_of_lt h .endOfFile s) 0).trans
        (Loop.rounds_of_not rfl 0)⟩
  | block content h ih =>
      intro s
      obtain ⟨n, f, hn⟩ := ih (s.update T (content.take 1024))
      refine ⟨n + 1, f, ?_⟩
      rw [Loop.rounds_of_ok rfl (body_of_le h .endOfFile s), hn]
      unfold Call.ranges
      dsimp only
      rw [Blocks.full_of_le hpos h, Blocks.rest_of_le hpos h]
      rfl

/-- With enough rounds a call comes to its ranges. -/
theorem call_eq (c : Call) (s : Md5) :
    ∃ n, ∀ k, n ≤ k → s.call T k c = some (.ok (s.updates T c.ranges)) := by
  cases c with
  | range input => exact ⟨0, fun _ _ => rfl⟩
  | file content =>
      obtain ⟨n, f, hn⟩ := rounds_of_file (T := T) content s
      refine ⟨n, fun k hk => ?_⟩
      show (Loop.rounds Reading.more (Reading.body T) k
        ⟨.fresh content .endOfFile, s⟩).map _ = _
      rw [Loop.rounds_mono hk hn]
      rfl

/-- And so do calls in a row. -/
theorem calls_eq (cs : List Call) :
    ∀ s : Md5, ∃ n, ∀ k, n ≤ k →
      s.calls T k cs = some (.ok (s.updates T (cs.flatMap Call.ranges))) := by
  induction cs with
  | nil =>
      intro s
      exact ⟨0, fun _ _ => rfl⟩
  | cons c cs ih =>
      intro s
      obtain ⟨n, hn⟩ := call_eq (T := T) c s
      obtain ⟨m, hm⟩ := ih (s.updates T c.ranges)
      refine ⟨max n m, fun k hk => ?_⟩
      unfold Md5.calls
      rw [hn k (by omega)]
      dsimp only
      rw [hm k (by omega), List.flatMap_cons]
      unfold Md5.updates
      rw [List.foldl_append]

/-- What calls come to does not change with more rounds. -/
theorem call_mono {c : Call} {s : Md5} {n k : Nat} {r : Except Fault Md5}
    (hle : n ≤ k) (h : s.call T n c = some r) : s.call T k c = some r := by
  cases c with
  | range input => exact h
  | file content =>
      obtain ⟨r', hr', rfl⟩ := Option.map_eq_some_iff.mp h
      show (Loop.rounds Reading.more (Reading.body T) k
        ⟨.fresh content .endOfFile, s⟩).map _ = _
      rw [Loop.rounds_mono hle hr']
      rfl

theorem calls_mono {cs : List Call} {n k : Nat} {r : Except Fault Md5}
    (hle : n ≤ k) :
    ∀ {s : Md5}, s.calls T n cs = some r → s.calls T k cs = some r := by
  induction cs with
  | nil =>
      intro s h
      exact h
  | cons c cs ih =>
      intro s h
      unfold Md5.calls at h ⊢
      cases hc : s.call T n c with
      | none =>
          rw [hc] at h
          cases h
      | some r' =>
          rw [hc] at h
          rw [call_mono hle hc]
          cases r' with
          | error e => exact h
          | ok s' => exact ih h

/-- What calls come to, however many rounds they are given. -/
theorem exists_calls_iff {cs : List Call} {s : Md5} {P : Md5 → Prop} :
    (∃ n s', s.calls T n cs = some (.ok s') ∧ P s')
      ↔ P (s.updates T (cs.flatMap Call.ranges)) := by
  obtain ⟨n, hn⟩ := calls_eq (T := T) cs s
  constructor
  · intro h
    obtain ⟨k, s', hk, hs'⟩ := h
    have hmost := calls_mono (Nat.le_max_right n k) hk
    rw [hn _ (Nat.le_max_left n k)] at hmost
    obtain rfl := Except.ok.inj (Option.some.inj hmost)
    exact hs'
  · intro h
    exact ⟨n, _, hn n (Nat.le_refl n), h⟩

theorem flatten_ranges (cs : List Call) :
    (cs.flatMap Call.ranges).flatten = message cs := by
  induction cs with
  | nil => rfl
  | cons c cs ih =>
      rw [List.flatMap_cons, List.flatten_append, ih, c.flatten_ranges]
      rfl

-- ============================================================== RFC 1321

/-- A number in so many bytes, the low one first. -/
def littleEndian (n x : Nat) : Str :=
  (List.range n).map fun i => UInt8.ofNat (x / 256 ^ i)

/-- The padded message: a 1 bit, zeros up to eight bytes short of a block,
and the length in bits. -/
def rfcPadded (m : Str) : Str :=
  m ++ 0x80 :: (List.replicate ((119 - m.length % 64) % 64) 0
    ++ littleEndian 8 (8 * m.length))

/-- The blocks of RFC 1321 for a message. -/
def rfcBlocks (m : Str) : List Str := full 64 (rfcPadded m)

/-- What `final` adds to a message of this length, in two calls. -/
def closing (length : Nat) : List Str :=
  [padding.take (padLen (length % 64)), littleEndian 8 (8 * length)]

/-- The four words of the chaining state, as `digest` writes them. -/
def MagicNum.bytes (w : MagicNum) : Str := encode [w.m0, w.m1, w.m2, w.m3]

theorem append_closing (m : Str) :
    m ++ (closing m.length).flatten = rfcPadded m := by
  have hpad : padding.take (padLen (m.length % 64))
      = 0x80 :: List.replicate ((119 - m.length % 64) % 64) 0 := by
    have hk : padLen (m.length % 64) = (119 - m.length % 64) % 64 + 1 := by
      unfold padLen
      split <;> omega
    have hle : (119 - m.length % 64) % 64 ≤ 63 := by omega
    rw [hk]
    unfold padding
    rw [List.take_succ_cons, List.take_replicate, Nat.min_eq_left hle]
  unfold closing rfcPadded
  rw [List.flatten_cons, List.flatten_cons, List.flatten_nil, List.append_nil,
    hpad]
  rfl

theorem toUInt8_and_mask (x : UInt64) :
    (x &&& 0xff).toUInt8 = UInt8.ofNat x.toNat := by
  apply UInt8.toNat_inj.mp
  have hmask : (0xff : UInt64).toNat = 2 ^ 8 - 1 := rfl
  rw [UInt64.toNat_toUInt8, UInt64.toNat_and, hmask,
    Nat.and_two_pow_sub_one_eq_mod]
  simp

/-- `encode` keeps the low four bytes of a word. -/
theorem encodeWord_eq (w : UInt64) : encodeWord w = littleEndian 4 w.toNat := by
  unfold encodeWord littleEndian
  rw [toUInt8_and_mask, toUInt8_and_mask, toUInt8_and_mask, toUInt8_and_mask,
    UInt64.toNat_shiftRight, UInt64.toNat_shiftRight, UInt64.toNat_shiftRight]
  simp [List.range_succ, Nat.shiftRight_eq_div_pow]

/-- Below 2^29 bytes the length in bits fits the low four bytes of the
first word. -/
theorem encode_count {length : Nat} (h : length < 2 ^ 29) :
    encode [UInt64.ofNat (8 * length), 0] = littleEndian 8 (8 * length) := by
  have hx : (UInt64.ofNat (8 * length)).toNat = 8 * length := by
    rw [UInt64.toNat_ofNat']
    omega
  have hhigh : littleEndian 4 0
      = ((List.range 4).map (4 + ·)).map
          fun i => UInt8.ofNat (8 * length / 256 ^ i) := by
    rw [List.map_map]
    apply List.map_congr_left
    intro i _
    have hpow : 8 * length < 256 ^ (4 + i) := by
      have hle := Nat.pow_le_pow_right (n := 256) (by omega) (Nat.le_add_right 4 i)
      omega
    show UInt8.ofNat (0 / 256 ^ i) = UInt8.ofNat (8 * length / 256 ^ (4 + i))
    rw [Nat.div_eq_of_lt hpow, Nat.zero_div]
  unfold encode
  rw [List.flatMap_cons, List.flatMap_cons, List.flatMap_nil, encodeWord_eq,
    encodeWord_eq, hx, List.append_nil]
  show littleEndian 4 (8 * length) ++ littleEndian 4 0
    = (List.range (4 + 4)).map _
  rw [hhigh, List.range_add, List.map_append]
  rfl

-- ================================================================= digest

/-- Below 2^29 bytes a call leaves the high word of the count alone. -/
theorem Tracks.update_count1 {s : Md5} {m u : Str} (h : Tracks T s m)
    (hlen : (m ++ u).length < 2 ^ 29) : (s.update T u).count1 = s.count1 := by
  have hcount1 : ∀ r : Md5, r.count0 = s.count0 → r.count1 = s.count1 →
      (r.count u.length).count1 = s.count1 := by
    intro r hr0 hr1
    rw [List.length_append] at hlen
    have hlow : ¬ r.count0 + UInt64.ofNat u.length <<< 3
        < UInt64.ofNat u.length <<< 3 := by
      rw [hr0, h.count0, ofNat_shiftLeft, ← UInt64.ofNat_add,
        UInt64.lt_iff_toNat_lt, UInt64.toNat_ofNat', UInt64.toNat_ofNat']
      omega
    have hhigh : UInt64.ofNat u.length >>> 29 = 0 := by
      apply UInt64.toNat_inj.mp
      rw [UInt64.toNat_shiftRight, UInt64.toNat_ofNat']
      simp [Nat.shiftRight_eq_div_pow]
      omega
    unfold Md5.count
    dsimp only
    rw [if_neg hlow, hhigh, hr1]
    exact UInt64.add_zero _
  by_cases hle : 64 - s.index ≤ u.length
  · rw [update_of_le hle, Md5.feed_eq]
    exact hcount1 _ rfl rfl
  · rw [update_of_lt (Nat.not_le.mp hle)]
    exact hcount1 _ rfl rfl

theorem Tracks.updates_count1 {us : List Str} :
    ∀ {s : Md5} {m : Str}, Tracks T s m →
      (m ++ us.flatten).length < 2 ^ 29 →
      (s.updates T us).count1 = s.count1 := by
  induction us with
  | nil =>
      intro s m _ _
      rfl
  | cons u us ih =>
      intro s m h hlen
      rw [List.flatten_cons, ← List.append_assoc] at hlen
      have hfirst : (m ++ u).length < 2 ^ 29 := by
        rw [List.length_append] at hlen
        omega
      have hrest := ih (h.update u) hlen
      rw [h.update_count1 hfirst] at hrest
      exact hrest

/-- `digest` updates the object with the padding and the length. -/
theorem Tracks.digest_eq {s : Md5} {m : Str} (h : Tracks T s m)
    (hcount1 : s.count1 = 0) (hlen : m.length < 2 ^ 29) :
    (s.digest T).fed = (s.updates T (closing m.length)).fed
      ∧ (s.digest T).digestBytes
        = (s.updates T (closing m.length)).magicNum.bytes := by
  have hbits : encode [s.count0, s.count1] = littleEndian 8 (8 * m.length) := by
    rw [h.count0, hcount1]
    exact encode_count hlen
  have hclosing : closing m.length
      = [padding.take (padLen s.index), encode [s.count0, s.count1]] := by
    unfold closing
    rw [hbits, h.index_eq]
  have hnot : ¬ s.finish = true := by
    rw [h.finish]
    exact Bool.false_ne_true
  unfold Md5.digest
  rw [if_neg hnot, hclosing]
  exact ⟨rfl, rfl⟩

/-- After these calls on a reset object, `digest` has given the block
function the blocks of RFC 1321 for the bytes of the calls, and returns
what the block function makes of those. -/
def FeedsRfc (T : Transformers) (s : Md5) (cs : List Call) : Prop :=
  ∃ n s', s.reset.calls T n cs = some (.ok s')
    ∧ (s'.digest T).fed = rfcBlocks (message cs)
    ∧ (s'.digest T).digestBytes
      = ((rfcBlocks (message cs)).foldl T .start).bytes

/-- Every call of `update`, the two of `final` included, that completes a
block starts with the bytes that wait for it in `__buff`. -/
def Carried (T : Transformers) (s : Md5) (cs : List Call) : Prop :=
  Runs.Along (step T) Ready (s.reset, [])
    (cs.flatMap Call.ranges ++ closing (message cs).length)

/-- Below 2^29 bytes the digest is that of RFC 1321's blocks, for any
cutting of the message into calls, exactly when every call that
completes a block finds in `__buff` the bytes that wait for it. -/
theorem feeds_iff (T : Transformers) (s : Md5) {cs : List Call}
    (hlen : (message cs).length < 2 ^ 29) :
    FeedsRfc T s cs ↔ Carried T s cs := by
  have hstart := tracks_reset (T := T) s
  have hflat : ([] : Str) ++ (cs.flatMap Call.ranges).flatten = message cs :=
    flatten_ranges cs
  have htracks : Tracks T (s.reset.updates T (cs.flatMap Call.ranges))
      (message cs) := by
    rw [← hflat]
    exact hstart.updates
  have hcount1 : (s.reset.updates T (cs.flatMap Call.ranges)).count1 = 0 := by
    rw [← hflat] at hlen
    exact hstart.updates_count1 hlen
  obtain ⟨hfed, hbytes⟩ := htracks.digest_eq hcount1 hlen
  have hall : (s.reset.updates T (cs.flatMap Call.ranges)).updates T
        (closing (message cs).length)
      = s.reset.updates T
        (cs.flatMap Call.ranges ++ closing (message cs).length) :=
    List.foldl_append.symm
  have hpadded : ([] : Str)
      ++ (cs.flatMap Call.ranges ++ closing (message cs).length).flatten
      = rfcPadded (message cs) := by
    rw [List.nil_append, List.flatten_append, flatten_ranges, append_closing]
  have hfeeds : FeedsRfc T s cs
      ↔ (s.reset.updates T
          (cs.flatMap Call.ranges ++ closing (message cs).length)).fed
        = rfcBlocks (message cs) := by
    rw [← hall, ← hfed]
    refine exists_calls_iff.trans (and_iff_left_of_imp ?_)
    intro hblocks
    rw [hbytes, htracks.updates.magicNum, ← hblocks, hfed]
  have hiff : (s.reset.updates T
      (cs.flatMap Call.ranges ++ closing (message cs).length)).fed
        = full 64 (rfcPadded (message cs))
      ↔ s.reset.fed = full 64 [] ∧ Carried T s cs := by
    rw [← hpadded]
    exact fed_updates_iff hstart
  rw [hfeeds]
  exact hiff.trans (and_iff_right rfl)

-- ========================================================= where it fails

/-- An object whose buffer holds this byte 64 times. -/
def filled (b : UInt8) : Md5 :=
  ⟨⟨List.replicate 64 b, List.length_replicate⟩, [], .start, 0, 0, false, []⟩

/-- A message of 64 bytes in one call, on a buffer of zeros. -/
theorem feeds_iff_block :
    FeedsRfc (fun w _ => w) (filled 0) [.range (List.replicate 64 97)]
      ↔ Carried (fun w _ => w) (filled 0) [.range (List.replicate 64 97)] :=
  feeds_iff _ _ (by decide)

/-- The digest of `abc` is not taken over `abc`. -/
theorem abc_not_fed :
    ¬ FeedsRfc (fun w _ => w) (filled 0) [.range (bytes "abc")] := by
  intro h
  obtain ⟨n, s', hs', hfed, -⟩ := h
  obtain rfl := Except.ok.inj (Option.some.inj hs')
  revert hfed
  decide

end TrashyServer.Digest
