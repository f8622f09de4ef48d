/-
What `http_parse(std::string &)` makes of a text that
`http_parse(char *)` makes an object of.

It copies as many bytes as a pointer has, into a block that may be
shorter, and what it then parses is these and whatever the block holds
behind them (`httpParseString_ok_iff`). The object so parsed is a
temporary. Its own members stay as they were before, but for
`origin_data` (`httpParseString_ok`): there is no route, so the two
objects are never the same (`string_never`).
-/
import TrashyServer.Tool.Proofs.Construct

namespace TrashyServer.Tool

-- ================================================================ the string

/-- The text that is parsed: the first bytes of the string, and the
memory behind them up to a NUL. -/
def copied (str : Str) (heap : Heap str.length) : Str :=
  cut (str.take sizeofPointer ++ heap.block.drop sizeofPointer ++ heap.behind)

/-- The constructor ends where the copy fits the block and that text is
a message. -/
theorem httpParseString_ok_iff (raw inner : Raw) {str : Str}
    (heap : Heap str.length) (hend : nul ∈ heap.behind) :
    (∃ m, httpParseString raw inner str heap = .ok m)
      ↔ sizeofPointer ≤ str.length ∧ Constructs (copied str heap) := by
  unfold httpParseString memcpy
  by_cases hfit : sizeofPointer ≤ str.length
  · have hboth : sizeofPointer ≤ heap.block.length
        ∧ sizeofPointer ≤ (str ++ [nul]).length := by
      rw [heap.size, List.length_append]
      omega
    have htake : (str ++ [nul]).take sizeofPointer = str.take sizeofPointer :=
      List.take_append_of_le_length hfit
    have hmem : nul ∈ str.take sizeofPointer
        ++ heap.block.drop sizeofPointer ++ heap.behind :=
      List.mem_append_right _ hend
    unfold copied
    rw [if_pos hboth, ok_bind, htake, exists_bind_ok,
      ← httpParse_ok_iff inner hmem]
    simp [hfit]
  · have hover : ¬ (sizeofPointer ≤ heap.block.length
        ∧ sizeofPointer ≤ (str ++ [nul]).length) := by
      rw [heap.size]
      exact fun h => hfit h.1
    rw [if_neg hover, error_bind]
    simp [hfit]

/-- Its object is the text in members without any value. -/
theorem httpParseString_ok {raw inner : Raw} {str : Str}
    {heap : Heap str.length} {m : Members}
    (h : httpParseString raw inner str heap = .ok m) :
    m = ⟨raw.version, str, raw.requestMethod, none, [], [], []⟩ := by
  unfold httpParseString at h
  cases hcopy : memcpy heap.block (str ++ [nul]) sizeofPointer with
  | error e =>
      rw [hcopy, error_bind] at h
      cases h
  | ok tmpStr =>
      rw [hcopy, ok_bind] at h
      cases hparse : httpParse inner (tmpStr ++ heap.behind) with
      | error e =>
          rw [hparse, error_bind] at h
          cases h
      | ok p =>
          rw [hparse, ok_bind] at h
          exact (Except.ok.inj h).symm

-- =============================================================== the objects

/-- A text that `http_parse(char *)` makes an object of. -/
structure Parsed where
  text : Str
  nulFree : nul ∉ text
  raw : Raw
  object : HttpParse
  completes : httpParse raw (text ++ [nul]) = .ok object

/-- The members that the constructors set, all but `version`. -/
def Members.set (m : Members) :
    Str × Option Str × Option Method × Str × Str × Str :=
  (m.originData, m.route, m.requestMethod, m.hostStr, m.fileTypeStr,
    m.fileLengthStr)

/-- `http_parse(std::string &)` makes the same object of the text. -/
def SameObject (q : Parsed) (raw inner : Raw) (heap : Heap q.text.length) :
    Prop :=
  ∃ m, httpParseString raw inner q.text heap = .ok m
    ∧ m.set = q.object.members.set

/-- The other constructor's objects all have a route. -/
theorem set_ne {raw inner : Raw} {str : Str} {heap : Heap str.length}
    {m : Members} (h : httpParseString raw inner str heap = .ok m)
    (p : HttpParse) : m.set ≠ p.members.set := by
  intro hset
  have hroute : m.route = some p.route := congrArg (fun set => set.2.1) hset
  rw [httpParseString_ok h] at hroute
  cases hroute

/-- When the constructors agree: never. For every NUL-free text that
`http_parse(char *)` makes an object of, and whatever the memory of
either object and of the block holds, `http_parse(std::string &)` fails
or makes another object. -/
theorem string_never (q : Parsed) (raw inner : Raw)
    (heap : Heap q.text.length) : ¬ SameObject q raw inner heap := by
  intro h
  obtain ⟨m, hm, hset⟩ := h
  exact set_ne hm q.object hset

/-- The smallest request for the index page: in a heap of zeros it has no
line to be found, and in none does it give the same object. -/
theorem index_not_same : ∃ q : Parsed,
    q.text = bytes "GET / HTTP/1.1\r\n\r\n" ∧ q.object.route = bytes "/"
      ∧ (∃ heap, ∀ raw inner,
          httpParseString raw inner q.text heap = .error .vectorRange)
      ∧ ∀ raw inner heap, ¬ SameObject q raw inner heap := by
  have hnul : nul ∉ bytes "GET / HTTP/1.1\r\n\r\n" := by decide
  have hobject : httpParse ⟨0, none⟩
      (bytes "GET / HTTP/1.1\r\n\r\n" ++ [nul])
      = .ok ⟨0, bytes "GET / HTTP/1.1\r\n\r\n", some .get, bytes "/",
          [], [], []⟩ := by
    decide +kernel
  refine ⟨⟨_, hnul, _, _, hobject⟩, rfl, rfl, ?_, ?_⟩
  · refine ⟨⟨List.replicate 18 0, rfl, [0]⟩, ?_⟩
    intro raw inner
    have hcopy : memcpy (List.replicate 18 0)
        (bytes "GET / HTTP/1.1\r\n\r\n" ++ [nul]) sizeofPointer
        = .ok (bytes "GET / HT" ++ List.replicate 10 0) := by
      decide +kernel
    have hnone : target (cut (bytes "GET / HT" ++ List.replicate 10 0 ++ [0]))
        = none := by
      decide +kernel
    have hparse : httpParse inner
        (bytes "GET / HT" ++ List.replicate 10 0 ++ [0])
        = .error .vectorRange := by
      rw [httpParse_eq inner (by decide), hnone]
    unfold httpParseString
    dsimp only
    rw [hcopy, ok_bind, hparse, error_bind]
  · intro raw inner heap h
    obtain ⟨m, hm, hset⟩ := h
    exact set_ne hm _ hset

end TrashyServer.Tool
