/-
Byte strings, and the ways the library calls of the server can fail.

`Str` is both `std::string` and the bytes a `char *` points at; the two
are told apart by the operation. A `std::string` uses its whole list, a
C string ends at its first NUL (`cut`), and a pointer whose memory
holds no NUL is read past its end (`Fault.overread`). Literals of the
source are `bytes "…"`.

Positions are `Nat`. What `find` returns is an `Option`, and `offset`
gives its sum with a constant the way `size_type` arithmetic does:
`npos` is 2^64 - 1, so `npos + k` is `k - 1`.
-/
import TrashyServer.Lib.Search
import Mathlib.Algebra.Group.Nat.Defs
import Mathlib.Data.List.TakeWhile

namespace TrashyServer

-- ============================================================== the bytes

/-- A sequence of `char`s. -/
abbrev Str := List UInt8

/-- The bytes of a string literal of the source. -/
def bytes (s : String) : Str :=
  s.toList.map fun c => c.toNat.toUInt8

/-- `'\0'`. -/
def nul : UInt8 := 0

/-- `'\n'`. -/
def lf : UInt8 := 10

/-- `'\r'`. -/
def cr : UInt8 := 13

@[simp]
theorem lf_ne_cr : lf ≠ cr := by decide

@[simp]
theorem cr_ne_blank : cr ≠ 32 := by decide

@[simp]
theorem lf_ne_blank : lf ≠ 32 := by decide

/-- `"\r\n"`. -/
def crlf : Str := [cr, lf]

/-- A text up to its first `c`, -/
theorem takeWhile_at {s : Str} {c : UInt8} (h : c ∉ s) (rest : Str) :
    (s ++ c :: rest).takeWhile (· ≠ c) = s := by
  rw [List.takeWhile_append_of_pos]
  · simp
  · intro b hb
    simpa using fun hz : b = c => h (hz ▸ hb)

/-- and from there on. -/
theorem dropWhile_at {s : Str} {c : UInt8} (h : c ∉ s) (rest : Str) :
    (s ++ c :: rest).dropWhile (· ≠ c) = c :: rest := by
  rw [List.dropWhile_append_of_pos]
  · simp
  · intro b hb
    simpa using fun hz : b = c => h (hz ▸ hb)

-- ================================================================= faults

/-- How a library call fails. -/
inductive Fault
  /-- An element outside its vector, string or array. -/
  | vectorRange
  /-- `std::out_of_range` from `substr`, which nobody catches. -/
  | substrRange
  /-- A C string without a NUL in its memory. -/
  | overread
  /-- A loop that does not end. -/
  | diverges
deriving DecidableEq

@[simp]
theorem ok_bind {α β : Type} (a : α) (f : α → Except Fault β) :
    ((.ok a : Except Fault α) >>= f) = f a := rfl

@[simp]
theorem error_bind {α β : Type} (e : Fault) (f : α → Except Fault β) :
    ((.error e : Except Fault α) >>= f) = .error e := rfl

/-- What a sequence gives is what the rest gives on what its first part
gives. -/
theorem bind_eq_ok {ε α β : Type} {x : Except ε α} {f : α → Except ε β}
    {b : β} : (x >>= f) = .ok b ↔ ∃ a, x = .ok a ∧ f a = .ok b := by
  constructor
  · intro h
    cases x with
    | error e => cases h
    | ok a => exact ⟨a, rfl, h⟩
  · intro h
    obtain ⟨a, rfl, hb⟩ := h
    exact hb

/-- A sequence succeeds when its first part does and the rest does on
that result. -/
theorem exists_bind_ok {α β : Type} {x : Except Fault α}
    {f : α → Except Fault β} :
    (∃ b, (x >>= f) = .ok b) ↔ ∃ a, x = .ok a ∧ ∃ b, f a = .ok b := by
  cases x with
  | error e => simp
  | ok a => simp

/-- `v[i]` on a vector. -/
def vectorAt {α : Type} (v : List α) (i : Nat) : Except Fault α :=
  match v[i]? with
  | some a => .ok a
  | none => .error .vectorRange

/-- An element behind a part that has been passed. -/
theorem vectorAt_append {α : Type} (a : List α) (k : Nat) (x : List α) :
    vectorAt (a ++ x) (a.length + k) = vectorAt x k := by
  unfold vectorAt
  rw [List.getElem?_append_right (Nat.le_add_right ..), Nat.add_sub_cancel_left]

/-- `s.substr(pos, len)`. -/
def substr (s : Str) (pos len : Nat) : Except Fault Str :=
  if s.length < pos then .error .substrRange
  else .ok ((s.drop pos).take len)

theorem substr_of_le {s : Str} {pos : Nat} (h : pos ≤ s.length) (len : Nat) :
    substr s pos len = .ok ((s.drop pos).take len) :=
  if_neg (Nat.not_lt.mpr h)

theorem substr_of_lt {s : Str} {pos : Nat} (h : s.length < pos) (len : Nat) :
    substr s pos len = .error .substrRange :=
  if_pos h

/-- `s.substr(pos)`. -/
def substrFrom (s : Str) (pos : Nat) : Except Fault Str :=
  if s.length < pos then .error .substrRange else .ok (s.drop pos)

/-- `s.find(p, pos)`. -/
def findFrom (p s : Str) (pos : Nat) : Option Nat :=
  if pos ≤ s.length then (Search.find p (s.drop pos)).map (· + pos)
  else none

theorem findFrom_zero (p s : Str) : findFrom p s 0 = Search.find p s := by
  unfold findFrom
  rw [if_pos (Nat.zero_le _), List.drop_zero]
  exact Option.map_id'

/-- `s.find(p) + k`, `npos` included. -/
def offset (pos : Option Nat) (k : Nat) : Nat :=
  match pos with
  | some i => i + k
  | none => (2 ^ 64 - 1 + k) % 2 ^ 64

-- ============================================================== C strings

/-- The bytes before the first NUL. -/
def cut (mem : Str) : Str := mem.takeWhile (· ≠ nul)

/-- `strlen`. -/
def strlen (mem : Str) : Nat := (cut mem).length

/-- `std::string(p)`, for a `p` pointing at this memory. -/
def cstr (mem : Str) : Except Fault Str :=
  if nul ∈ mem then .ok (cut mem) else .error .overread

theorem cut_of_nulFree {s : Str} (h : nul ∉ s) : cut s = s :=
  List.takeWhile_eq_self_iff.mpr fun b hb => by
    simpa using fun hz : b = nul => h (hz ▸ hb)

theorem nul_notMem_cut (mem : Str) : nul ∉ cut mem := by
  intro h
  simpa using List.mem_takeWhile_imp h

theorem length_cut_le (mem : Str) : (cut mem).length ≤ mem.length :=
  (List.takeWhile_prefix _).length_le

/-- A text runs on over memory without a NUL. -/
theorem cut_append {s : Str} (h : nul ∉ s) (rest : Str) :
    cut (s ++ rest) = s ++ cut rest := by
  rw [cut, List.takeWhile_append_of_pos]
  · rfl
  · intro b hb
    simpa using fun hz : b = nul => h (hz ▸ hb)

/-- Behind a NUL nothing is read. -/
theorem cut_append_of_mem {s : Str} (h : nul ∈ s) (rest : Str) :
    cut (s ++ rest) = cut s := by
  induction s with
  | nil => cases h
  | cons b s ih =>
      unfold cut
      rw [List.cons_append, List.takeWhile_cons, List.takeWhile_cons]
      split
      · next hb =>
        have hs : nul ∈ s := (List.mem_cons.mp h).resolve_left fun hz => by
          simp [← hz] at hb
        exact congrArg (b :: ·) (ih hs)
      · rfl

theorem cut_append_nul (s rest : Str) : cut (s ++ nul :: rest) = cut s := by
  by_cases h : nul ∈ s
  · exact cut_append_of_mem h _
  · rw [cut_append h, cut_of_nulFree h]
    simp [cut]

theorem strlen_of_nulFree {s : Str} (h : nul ∉ s) : strlen s = s.length := by
  rw [strlen, cut_of_nulFree h]

/-- The value of a `size_t` stored into an `int` (two's complement, as
gcc does). -/
def toInt (n : Nat) : Int :=
  if n % 2 ^ 32 < 2 ^ 31 then (n % 2 ^ 32 : Nat)
  else (n % 2 ^ 32 : Nat) - (2 ^ 32 : Nat)

theorem toInt_of_lt {n : Nat} (h : n < 2 ^ 31) : toInt n = n := by
  unfold toInt
  rw [if_pos] <;> omega

theorem toInt_le (n : Nat) : toInt n ≤ n := by
  unfold toInt
  split <;> omega

end TrashyServer
