/-
What the checksum of the configuration file is blind to.

`update` hands over the blocks of what it is given and stores nothing of
what is left behind the last one. A file is read in pieces of 1024
bytes, sixteen blocks, so between two pieces nothing waits and every
piece is cut where the file is (`index_eq_zero`); what is left over is
the end of the file, and of that only the length is taken. Two files of
one length with the same whole blocks leave the object the same
(`rounds_same`), and so have the same checksum, whatever the block
function is (`checksum_blind`).
-/
import TrashyServer.Digest.Proofs.Feed

namespace TrashyServer.Digest

open Blocks (full rest)

variable {T : Transformers}

/-- `calcul_file_md5`, the object made in the memory `memory`, at most
`n` times round its loop. -/
def calculFileMd5 (T : Transformers) (n : Nat) (memory : Md5)
    (file : FileBehaviour) : Option (Except Fault Str) :=
  (memory.reset.updateFile T n (.new file)).map
    (·.map fun md5 => (md5.toString T).1)

-- =============================================================== one piece

/-- While nothing waits, a piece leaves its length and its blocks. -/
theorem update_same {s : Md5} (hindex : s.index = 0) {u v : Str}
    (hlen : u.length = v.length) (hblocks : full 64 u = full 64 v) :
    s.update T u = s.update T v := by
  by_cases hle : 64 ≤ u.length
  · have hu : 64 - s.index ≤ u.length := by omega
    have hv : 64 - s.index ≤ v.length := by omega
    have hle' : 64 ≤ v.length := hlen ▸ hle
    rw [Blocks.full_of_le (s := u) (by omega) hle,
      Blocks.full_of_le (s := v) (by omega) hle'] at hblocks
    have hroom : 64 - s.index = 64 := by omega
    have hfirst : u.take (64 - s.index) = v.take (64 - s.index) := by
      rw [hroom]
      exact (List.cons.inj hblocks).1
    have hmore : full 64 (u.drop (64 - s.index))
        = full 64 (v.drop (64 - s.index)) := by
      rw [hroom]
      exact (List.cons.inj hblocks).2
    have hfill : Block.fill s.buff u s.index s.index_lt hu
        = Block.fill s.buff v s.index s.index_lt hv := by
      apply Subtype.ext
      show s.buff.val.take s.index ++ u.take (64 - s.index)
        = s.buff.val.take s.index ++ v.take (64 - s.index)
      rw [hfirst]
    rw [update_of_le hu, update_of_le hv, hfill, hlen, hfirst, hmore]
  · rw [update_of_lt (by omega), update_of_lt (by omega), hlen]

/-- Nothing waits behind whole blocks. -/
theorem index_eq_zero {s : Md5} {m : Str} (h : Tracks T s m)
    (hwhole : m.length % 64 = 0) : s.index = 0 := by
  rw [h.index_eq, hwhole]

-- ================================================================ the file

/-- A whole number of blocks at the front of a list, and the list behind
it. -/
theorem full_take_drop {n k : Nat} (hn : 0 < n) {s : Str}
    (hle : n * k ≤ s.length) :
    full n s = full n (s.take (n * k)) ++ full n (s.drop (n * k)) := by
  have hnone : rest n (s.take (n * k)) = [] := by
    apply List.length_eq_zero_iff.mp
    rw [Blocks.length_rest, List.length_take_of_le hle, Nat.mul_mod_right]
  have happ := Blocks.full_append hn (s.take (n * k)) (s.drop (n * k))
  rwa [List.take_append_drop, hnone, List.nil_append] at happ

/-- Two files that agree in their blocks agree in a piece, and behind
it. -/
theorem same_pieces {u v : Str} (hlen : u.length = v.length)
    (hblocks : full 64 u = full 64 v) (hle : 1024 ≤ u.length) :
    u.take 1024 = v.take 1024
      ∧ full 64 (u.drop 1024) = full 64 (v.drop 1024) := by
  have hsplit : ∀ {s : Str}, 1024 ≤ s.length →
      full 64 s = full 64 (s.take 1024) ++ full 64 (s.drop 1024) :=
    fun h => full_take_drop (n := 64) (k := 16) (by omega) h
  have hwhole : ∀ {s : Str}, 1024 ≤ s.length →
      (full 64 (s.take 1024)).flatten = s.take 1024 := by
    intro s h
    have hnone : rest 64 (s.take 1024) = [] := by
      apply List.length_eq_zero_iff.mp
      rw [Blocks.length_rest, List.length_take_of_le h]
    have hall := Blocks.flatten_append_rest (by omega : 0 < 64) (s.take 1024)
    rwa [hnone, List.append_nil] at hall
  have hle' : 1024 ≤ v.length := hlen ▸ hle
  rw [hsplit hle, hsplit hle'] at hblocks
  have hcount : (full 64 (u.take 1024)).length
      = (full 64 (v.take 1024)).length := by
    rw [Blocks.length_full, Blocks.length_full, List.length_take_of_le hle,
      List.length_take_of_le hle']
  obtain ⟨hfront, hbehind⟩ := List.append_inj hblocks hcount
  refine ⟨?_, hbehind⟩
  rw [← hwhole hle, ← hwhole hle', hfront]

/-- The loop leaves the same object. -/
theorem rounds_same (u : Str) : ∀ (n : Nat) (v : Str) (s : Md5) (m : Str),
    Tracks T s m → m.length % 64 = 0 → u.length = v.length →
    full 64 u = full 64 v →
    (Loop.rounds Reading.more (Reading.body T) n
        ⟨.fresh u .endOfFile, s⟩).map (·.map Reading.md5)
      = (Loop.rounds Reading.more (Reading.body T) n
        ⟨.fresh v .endOfFile, s⟩).map (·.map Reading.md5) := by
  have hpos : 0 < 1024 := Nat.succ_pos _
  induction u using Blocks.block_induction hpos with
  | short u h =>
      intro n v s m hs hm hlen hblocks
      have hv : v.length < 1024 := hlen ▸ h
      have hranges : s.updates T (Call.file u).ranges
          = s.updates T (Call.file v).ranges := by
        have hsame := update_same (T := T) (index_eq_zero hs hm) hlen hblocks
        unfold Call.ranges
        dsimp only
        rw [Blocks.full_of_lt h, Blocks.full_of_lt hv, Blocks.rest_of_lt h,
          Blocks.rest_of_lt hv]
        by_cases hnil : u = []
        · have hnil' : v = [] := by
            rw [hnil] at hlen
            exact List.length_eq_zero_iff.mp hlen.symm
          rw [hnil, hnil']
        · have hne : v ≠ [] := by
            intro heq
            rw [heq] at hlen
            exact hnil (List.length_eq_zero_iff.mp hlen)
          rw [if_neg hnil, if_neg hne]
          exact hsame
      cases n with
      | zero => rfl
      | succ n =>
          rw [Loop.rounds_of_ok rfl (body_of_lt h .endOfFile s),
            Loop.rounds_of_ok rfl (body_of_lt hv .endOfFile s),
            Loop.rounds_of_not rfl n, Loop.rounds_of_not rfl n]
          exact congrArg (fun md5 => some (Except.ok md5)) hranges
  | block u h ih =>
      intro n v s m hs hm hlen hblocks
      have hv : 1024 ≤ v.length := hlen ▸ h
      obtain ⟨hpiece, hbehind⟩ := same_pieces hlen hblocks h
      cases n with
      | zero => rfl
      | succ n =>
          rw [Loop.rounds_of_ok rfl (body_of_le h .endOfFile s),
            Loop.rounds_of_ok rfl (body_of_le hv .endOfFile s), ← hpiece]
          refine ih n (v.drop 1024) _ (m ++ u.take 1024) (hs.update _) ?_ ?_
            hbehind
          · rw [List.length_append, List.length_take_of_le h]
            omega
          · rw [List.length_drop, List.length_drop, hlen]

/-- What the checksum is blind to. Whatever the block function and the
memory of the object: two configuration files of one length whose whole
blocks of 64 bytes are the same have the same checksum, so that a change
in what stands behind the last whole block is not seen, and in a file
shorter than a block none but of its length. -/
theorem checksum_blind (T : Transformers) (n : Nat) (memory : Md5)
    {u v : Str} (hlen : u.length = v.length)
    (hblocks : full 64 u = full 64 v) :
    calculFileMd5 T n memory (.opens u .endOfFile)
      = calculFileMd5 T n memory (.opens v .endOfFile) := by
  have hrounds := rounds_same (T := T) u n v memory.reset []
    (tracks_reset memory) rfl hlen hblocks
  have hgood : ∀ w : Str, ¬ (FileStream.new (.opens w .endOfFile)).not = true :=
    fun _ => Bool.false_ne_true
  unfold calculFileMd5 Md5.updateFile
  rw [if_neg (hgood u), if_neg (hgood v)]
  exact congrArg _ hrounds

/-- Another port, and the same checksum. -/
theorem checksum_blind_port :
    calculFileMd5 (fun w _ => w) 1 (filled 0)
        (.opens (bytes "listen_port:23333") .endOfFile)
      = calculFileMd5 (fun w _ => w) 1 (filled 0)
        (.opens (bytes "listen_port:18080") .endOfFile) := by
  apply checksum_blind
  · decide
  · decide

end TrashyServer.Digest
