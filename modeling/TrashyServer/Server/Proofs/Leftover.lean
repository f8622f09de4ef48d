/-
Whether a parsed request is a function of the bytes that were read.

`read` writes no NUL behind its bytes, so without one among them the
parser reads on into the array's old contents, and past the array where
those hold none either. And where no line names a method, the method is
what the object's memory held. `isolated_iff` says that these two are
all: with a NUL among the bytes, and a method named whenever an object
is made at all, nothing else gets in.
-/
import TrashyServer.Server.Model
import TrashyServer.Tool.Proofs.Construct

namespace TrashyServer.Server

open Tool

-- ===================================================== what is compared

/-- A request without its `version`. -/
def request (p : HttpParse) : HttpParse := { p with version := 0 }

/-- The parsed request is a function of the bytes read: one outcome,
whatever the array, the memory behind it and the object's own memory
hold, and however often the read was interrupted. -/
def Isolated (d : Str) : Prop :=
  ∃ outcome : Except Fault HttpParse, ∀ raw buff behind reads,
    buff.length = maxline → readLoop reads = some d →
      (parsed raw buff behind reads).map (Except.map request) = some outcome

theorem parsed_eq {d : Str} {reads : List ReadResult}
    (h : readLoop reads = some d) (raw : Raw) (buff behind : Str) :
    parsed raw buff behind reads
      = some (httpParse raw (d ++ buff.drop d.length ++ behind)) := by
  unfold parsed
  rw [h]
  rfl

-- ============================================== the part that is isolated

/-- Storing attributes keeps two objects apart in `version` and
`request_method` only. -/
theorem request_store_all (as : List Attrib) {p q : HttpParse}
    (h : ∀ m, request { p with requestMethod := m }
      = request { q with requestMethod := m }) :
    ∀ m, request { as.foldl Attrib.store p with requestMethod := m }
      = request { as.foldl Attrib.store q with requestMethod := m } := by
  induction as generalizing p q with
  | nil => exact h
  | cons a as ih =>
      refine ih fun m => ?_
      have hm := h m
      simp only [request, HttpParse.mk.injEq, true_and] at hm
      cases a <;> simp [Attrib.store, request, hm]

/-- Two constructions from one text agree, the method apart; and in the
method, if the text names one. -/
theorem httpParse_agree {mem mem' : Str} (raw raw' : Raw) (h : nul ∈ mem)
    (h' : nul ∈ mem') (hcut : cut mem = cut mem')
    (hnamed : Constructs (cut mem) → lastNamed (lines (cut mem)) ≠ none) :
    (httpParse raw mem).map request = (httpParse raw' mem').map request := by
  rw [httpParse_eq raw h, httpParse_eq raw' h', ← hcut]
  cases ht : target (cut mem) with
  | none => rfl
  | some t =>
      by_cases hone : t.count question = 1
      · simp [hone]
      cases has : (lines (cut mem)).mapM attribOf with
      | none => simp [hone, Except.map]
      | some as =>
          have hcuts := mapM_attribOf.mp ⟨as, has⟩
          have hlast := hnamed ⟨t, ht, hone, hcuts⟩
          have hmethod : ∀ p, (as.foldl Attrib.store p).requestMethod
              = lastNamed (lines (cut mem)) := fun p => by
            rw [(store_all p has).2.2]
            cases hl : lastNamed (lines (cut mem)) with
            | none => exact absurd hl hlast
            | some m => rfl
          have hsame := request_store_all as
            (p := .fresh raw (cut mem) t) (q := .fresh raw' (cut mem) t)
            (fun m => rfl) (lastNamed (lines (cut mem)))
          simp only [hone, if_false, Except.map, Except.ok.injEq]
          rw [← hmethod (.fresh raw (cut mem) t)] at hsame
          refine hsame.trans ?_
          rw [hmethod, ← hmethod (.fresh raw' (cut mem) t)]

-- ========================================================= what gets in

/-- Memory without a NUL is read past its end. -/
theorem httpParse_overread {mem : Str} (raw : Raw) (h : nul ∉ mem) :
    httpParse raw mem = .error .overread := by
  have hcstr : cstr mem = .error .overread := if_neg h
  unfold httpParse
  rw [hcstr, error_bind]

/-- Terminated memory is not. -/
theorem httpParse_no_overread {mem : Str} (raw : Raw) (h : nul ∈ mem) :
    httpParse raw mem ≠ .error .overread := by
  rw [httpParse_eq raw h]
  split
  · simp
  · split
    · simp
    · split <;> simp

/-- Without a NUL among the bytes, what lies behind them shows. -/
theorem nul_mem_of_isolated {d : Str} (h : Isolated d) : nul ∈ d := by
  obtain ⟨outcome, hout⟩ := h
  by_contra hd
  -- an array without a NUL, and memory behind it without and with one
  obtain ⟨buff, hlong, hbuff⟩ : ∃ buff : Str,
      buff.length = maxline ∧ nul ∉ buff :=
    ⟨List.replicate maxline 97, List.length_replicate, fun hm =>
      absurd (List.eq_of_mem_replicate hm) (by decide)⟩
  have hplain : nul ∉ d ++ buff.drop d.length ++ [] := fun hm => by
    rw [List.append_nil] at hm
    rcases List.mem_append.mp hm with hm | hm
    · exact hd hm
    · exact hbuff (List.mem_of_mem_drop hm)
  have hend : nul ∈ d ++ buff.drop d.length ++ [nul] :=
    List.mem_append_right _ (List.mem_singleton_self nul)
  have hover := hout ⟨0, none⟩ buff [] [.got d] hlong rfl
  have hstop := hout ⟨0, none⟩ buff [nul] [.got d] hlong rfl
  rw [parsed_eq rfl, httpParse_overread _ hplain] at hover
  rw [parsed_eq rfl, ← hover] at hstop
  cases hp : httpParse ⟨0, none⟩ (d ++ buff.drop d.length ++ [nul]) with
  | error fault =>
      rw [hp] at hstop
      cases hstop
      exact httpParse_no_overread _ hend hp
  | ok p =>
      rw [hp] at hstop
      cases hstop

/-- With no method named, the object's old memory shows. -/
theorem lastNamed_of_isolated {d : Str} (h : Isolated d)
    (hmade : Constructs (cut d)) : lastNamed (lines (cut d)) ≠ none := by
  have hd := nul_mem_of_isolated h
  obtain ⟨outcome, hout⟩ := h
  intro hlast
  obtain ⟨buff, hlong⟩ : ∃ buff : Str, buff.length = maxline :=
    ⟨List.replicate maxline nul, List.length_replicate⟩
  have hcut : cut (d ++ buff.drop d.length ++ []) = cut d := by
    rw [List.append_nil, cut_append_of_mem hd]
  have hmem : nul ∈ d ++ buff.drop d.length ++ [] :=
    List.mem_append_left _ (List.mem_append_left _ hd)
  have hold : ∀ raw : Raw, ∃ p, outcome = .ok (request p)
      ∧ p.requestMethod = raw.requestMethod := fun raw => by
    obtain ⟨p, hp⟩ := (httpParse_ok_iff raw hmem).mpr (by rw [hcut]; exact hmade)
    obtain ⟨_, _, hm⟩ := httpParse_ok hmem hp
    have hraw := hout raw buff [] [.got d] hlong rfl
    rw [parsed_eq rfl, hp, Option.map_some, Option.some.injEq] at hraw
    rw [hcut, hlast] at hm
    exact ⟨p, hraw.symm, hm⟩
  obtain ⟨p, hp, hpm⟩ := hold ⟨0, none⟩
  obtain ⟨q, hq, hqm⟩ := hold ⟨0, some .get⟩
  rw [hp, Except.ok.injEq] at hq
  -- `request` keeps the method
  have hsame : (request p).requestMethod = (request q).requestMethod := by
    rw [hq]
  cases hpm.symm.trans (hsame.trans hqm)

/-- When one client's request is its own. For all bytes a read may
deliver: the parsed request is a function of them exactly when there is
a NUL among them and, if the text before it makes an object, one of its
CRLF-terminated lines names a method. -/
theorem isolated_iff (d : Str) :
    Isolated d ↔ nul ∈ d
      ∧ (Constructs (cut d) → lastNamed (lines (cut d)) ≠ none) := by
  constructor
  · exact fun h => ⟨nul_mem_of_isolated h, lastNamed_of_isolated h⟩
  · rintro ⟨hd, hnamed⟩
    refine ⟨(httpParse ⟨0, none⟩ d).map request, ?_⟩
    intro raw buff behind reads _ hreads
    have hcut : cut (d ++ buff.drop d.length ++ behind) = cut d := by
      rw [List.append_assoc, cut_append_of_mem hd]
    have hmem : nul ∈ d ++ buff.drop d.length ++ behind :=
      List.mem_append_left _ (List.mem_append_left _ hd)
    rw [parsed_eq hreads, Option.map_some]
    refine congrArg some (httpParse_agree raw ⟨0, none⟩ hmem hd hcut ?_)
    rw [hcut]
    exact hnamed

-- ======================================================= one leftover

/-- The bytes of a small GET. -/
def smallGet : Str := bytes "GET / HTTP/1.1\r\n\r\n"

/-- An array that holds `tail` where the small GET ends. -/
def arrayWith (tail : Str) : Str :=
  List.replicate smallGet.length nul ++ tail
    ++ List.replicate (maxline - smallGet.length - tail.length) nul

theorem arrayWith_length {tail : Str}
    (hroom : smallGet.length + tail.length < maxline) :
    (arrayWith tail).length = maxline := by
  unfold arrayWith
  simp only [List.length_append, List.length_replicate]
  omega

/-- The parser reads the small GET and the tail. -/
theorem parsed_arrayWith (raw : Raw) {tail : Str} (hnul : nul ∉ smallGet ++ tail)
    (hroom : smallGet.length + tail.length < maxline) :
    parsed raw (arrayWith tail) [] [.got smallGet]
      = some (httpParse raw (smallGet ++ tail ++ [nul])) := by
  obtain ⟨k, hk⟩ : ∃ k, maxline - smallGet.length - tail.length = k + 1 :=
    ⟨maxline - smallGet.length - tail.length - 1, by omega⟩
  have hmem : smallGet ++ (arrayWith tail).drop smallGet.length ++ []
      = smallGet ++ tail ++ nul :: List.replicate k nul := by
    unfold arrayWith
    rw [List.append_assoc (List.replicate _ nul),
      List.drop_left' List.length_replicate, hk, List.replicate_succ,
      List.append_nil, List.append_assoc]
  have hend : nul ∈ smallGet ++ tail ++ nul :: List.replicate k nul :=
    List.mem_append_right _ (List.mem_cons_self ..)
  rw [parsed_eq rfl, hmem, httpParse_cut raw hend, cut_append_nul,
    cut_of_nulFree hnul]

/-- The same bytes are a GET or a PUT, by what the array held. -/
theorem leftover_changes_method :
    ∃ buff buff' : Str, buff.length = maxline ∧ buff'.length = maxline
      ∧ (parsed ⟨0, none⟩ buff [] [.got smallGet]).map
          (Except.map HttpParse.requestMethod) = some (.ok (some .get))
      ∧ (parsed ⟨0, none⟩ buff' [] [.got smallGet]).map
          (Except.map HttpParse.requestMethod) = some (.ok (some .put)) := by
  refine ⟨arrayWith [], arrayWith (bytes "PUT\r\n"), arrayWith_length (by decide),
    arrayWith_length (by decide), ?_, ?_⟩
  · rw [parsed_arrayWith _ (by decide) (by decide)]
    decide
  · rw [parsed_arrayWith _ (by decide) (by decide)]
    decide

end TrashyServer.Server
