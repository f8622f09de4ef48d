/-
What the constructor makes of a message, and when it fails.

The parser's code is tied to the message's meaning once:
`settingAttrib_eq` for a line, `httpParse_eq` for the constructor. From
there on only `lines`, `target` and `attribOf` are read.

A construction has four ways to fail and the path name one more, each a
shape of the text that any client can send (`serves_iff`): no CRLF at
all, fewer than two spaces on the first line, exactly one `?` in the
target, a header name that ends its line, and an empty target.
-/
import TrashyServer.Tool.Message

namespace TrashyServer.Tool

-- ================================================================ one line

theorem searchText_iff {line : Str} {text : String} :
    searchText line text = true ↔ bytes text <:+: line :=
  Pattern.search_lits

/-- The method words of `setting_attrib`, tried in order. -/
theorem settingAttrib_of_named {line : Str} {m : Method} (p : HttpParse)
    (h : named line = some m) :
    settingAttrib p line = .ok { p with requestMethod := some m } := by
  unfold named methodOrder at h
  unfold settingAttrib
  simp only [searchText_iff]
  simp only [List.find?_cons, List.find?_nil, Method.word] at h
  by_cases hget : bytes "GET" <:+: line
  · simp only [hget, decide_true, Option.some.injEq] at h
    rw [if_pos hget, h]
  by_cases hpost : bytes "POST" <:+: line
  · simp only [hget, hpost, decide_true, decide_false, Option.some.injEq] at h
    rw [if_neg hget, if_pos hpost, h]
  by_cases hput : bytes "PUT" <:+: line
  · simp only [hget, hpost, hput, decide_true, decide_false,
      Option.some.injEq] at h
    rw [if_neg hget, if_neg hpost, if_pos hput, h]
  by_cases hdelete : bytes "DELETE" <:+: line
  · simp only [hget, hpost, hput, hdelete, decide_true, decide_false,
      Option.some.injEq] at h
    rw [if_neg hget, if_neg hpost, if_neg hput, if_pos hdelete, h]
  by_cases hhead : bytes "HEAD" <:+: line
  · simp only [hget, hpost, hput, hdelete, hhead, decide_true, decide_false,
      Option.some.injEq] at h
    rw [if_neg hget, if_neg hpost, if_neg hput, if_neg hdelete, if_pos hhead, h]
  · simp only [hget, hpost, hput, hdelete, hhead, decide_false, reduceCtorEq] at h

/-- Cutting behind a word and storing the value, as `setting_attrib`
does for each of its three header names. -/
theorem substrFrom_store {word line : Str} (h : word <:+: line) (p : HttpParse)
    (attrib : Str → Attrib) :
    (do
      let v ← substrFrom line (offset (findFrom word line 0) (word.length + 1))
      .ok ((attrib v).store p) : Except Fault HttpParse)
      = match (valueBehind word line).map attrib with
        | some a => .ok (a.store p)
        | none => .error .substrRange := by
  rw [substrFrom_behind h]
  cases valueBehind word line with
  | none => rfl
  | some v => rfl

/-- Without a method word the line is tried for the version and the
three header names. -/
theorem settingAttrib_of_not_named {line : Str} (p : HttpParse)
    (h : named line = none) :
    settingAttrib p line
      = match attribOf line with
        | some a => .ok (a.store p)
        | none => .error .substrRange := by
  have hno : ∀ m : Method, ¬ m.word <:+: line := fun m hm =>
    named_ne_none hm h
  have hget : ¬ bytes "GET" <:+: line := hno .get
  have hpost : ¬ bytes "POST" <:+: line := hno .post
  have hput : ¬ bytes "PUT" <:+: line := hno .put
  have hdelete : ¬ bytes "DELETE" <:+: line := hno .delete
  have hhead : ¬ bytes "HEAD" <:+: line := hno .head
  unfold settingAttrib attribOf
  simp only [searchText_iff, h]
  rw [if_neg hget, if_neg hpost, if_neg hput, if_neg hdelete, if_neg hhead]
  by_cases hver : Pattern.search http11 line = true
  · rw [if_pos hver, if_pos hver]
    rfl
  rw [if_neg hver, if_neg hver]
  by_cases hhost : bytes "Host:" <:+: line
  · rw [if_pos hhost, if_pos hhost]
    exact substrFrom_store (host_word hhost) p .host
  rw [if_neg hhost, if_neg hhost]
  by_cases hlen : bytes "Content-length:" <:+: line
  · rw [if_pos hlen, if_pos hlen]
    exact substrFrom_store (length_word hlen) p .fileLength
  rw [if_neg hlen, if_neg hlen]
  by_cases htype : bytes "Content-type:" <:+: line
  · rw [if_pos htype, if_pos htype]
    exact substrFrom_store (type_word htype) p .fileType
  · rw [if_neg htype, if_neg htype]
    rfl

/-- `setting_attrib` stores the line's attribute, or throws where there
is none. -/
theorem settingAttrib_eq (p : HttpParse) (line : Str) :
    settingAttrib p line
      = match attribOf line with
        | some a => .ok (a.store p)
        | none => .error .substrRange := by
  cases h : named line with
  | some m =>
      rw [settingAttrib_of_named p h]
      unfold attribOf
      rw [h]
      rfl
  | none => exact settingAttrib_of_not_named p h

/-- All the lines: every attribute in turn, or the first cut past the
end. -/
theorem settingAttrib_all (p : HttpParse) (ls : List Str) :
    ls.foldlM settingAttrib p
      = match ls.mapM attribOf with
        | some as => .ok (as.foldl Attrib.store p)
        | none => .error .substrRange := by
  induction ls generalizing p with
  | nil => rfl
  | cons line ls ih =>
      rw [List.foldlM_cons, List.mapM_cons, settingAttrib_eq]
      cases attribOf line with
      | none => rfl
      | some a =>
          show ls.foldlM settingAttrib (a.store p) = _
          rw [ih]
          cases ls.mapM attribOf <;> rfl

/-- Every line stores something unless one cuts past its end. -/
theorem mapM_attribOf {ls : List Str} :
    (∃ as, ls.mapM attribOf = some as) ↔ ∀ line ∈ ls, ¬ CutsPastEnd line := by
  induction ls with
  | nil => simp
  | cons line ls ih =>
      rw [List.forall_mem_cons, ← ih, ← attribOf_eq_none_iff, List.mapM_cons]
      cases attribOf line <;> cases ls.mapM attribOf <;> simp

-- ========================================================= the constructor

theorem findStrS_iff {s : Str} {o : UInt8} : findStrS s o = true ↔ o ∈ s := by
  unfold findStrS
  simp

/-- `check_post_use_get` reads past the pieces of a route with exactly
one `?`, and only of such a route. -/
theorem checkPostUseGet_eq (route : Str) :
    if route.count question = 1
    then checkPostUseGet route = .error .vectorRange
    else ∃ answer, checkPostUseGet route = .ok answer := by
  have hsplit : split_ [] route (bytes "?")
      = .ok (Search.pieces [question] route) :=
    split_eq (List.cons_ne_nil _ _) [] route
  have hlen := Search.pieces_singleton_length question route
  unfold checkPostUseGet
  rw [hsplit]
  by_cases hq : question ∈ route
  · have hpos := List.count_pos_iff.mpr hq
    rw [if_pos (findStrS_iff.mpr hq)]
    split
    · next hone =>
      unfold vectorAt
      rw [ok_bind, List.getElem?_eq_none (by omega), error_bind]
    · next hmore =>
      unfold vectorAt
      rw [ok_bind, List.getElem?_eq_getElem (by omega), ok_bind]
      split
      · exact ⟨_, rfl⟩
      · exact ⟨_, rfl⟩
  · rw [if_neg (mt findStrS_iff.mp hq), if_neg (by
      rw [List.count_eq_zero_of_not_mem hq]
      omega)]
    exact ⟨_, rfl⟩

/-- The object before its lines are stored. -/
def HttpParse.fresh (raw : Raw) (text route : Str) : HttpParse where
  version := raw.version
  originData := text
  requestMethod := raw.requestMethod
  route := route
  hostStr := []
  fileTypeStr := []
  fileLengthStr := []

/-- The constructor on a terminated buffer, in terms of the message. -/
theorem httpParse_eq (raw : Raw) {mem : Str} (h : nul ∈ mem) :
    httpParse raw mem
      = match target (cut mem) with
        | none => .error .vectorRange
        | some t =>
            if t.count question = 1 then .error .vectorRange
            else match (lines (cut mem)).mapM attribOf with
              | none => .error .substrRange
              | some as =>
                  .ok (as.foldl Attrib.store (.fresh raw (cut mem) t)) := by
  have hcstr : cstr mem = .ok (cut mem) := if_pos h
  have hlines : split_ [] (cut mem) crlf = .ok (lines (cut mem)) :=
    split_eq (List.cons_ne_nil _ _) [] _
  unfold httpParse target vectorAt
  rw [hcstr, ok_bind, ok_bind, hlines, ok_bind]
  cases lines (cut mem) with
  | nil => rfl
  | cons line ls =>
      have hwords : split_ [] line (bytes " ") = .ok (words line) :=
        split_eq (List.cons_ne_nil _ _) [] _
      rw [List.getElem?_cons_zero, ok_bind, hwords, ok_bind, List.head?_cons,
        Option.bind_some]
      cases (words line)[1]? with
      | none => rfl
      | some t =>
          have hcheck := checkPostUseGet_eq t
          rw [ok_bind]
          dsimp only
          split at hcheck
          · next hone => rw [hcheck, error_bind, if_pos hone]
          · next hne =>
            obtain ⟨answer, hanswer⟩ := hcheck
            rw [hanswer, ok_bind, settingAttrib_all, if_neg hne]
            unfold HttpParse.fresh
            cases (line :: ls).mapM attribOf <;> rfl

/-- Nothing behind the NUL matters. -/
theorem httpParse_cut (raw : Raw) {mem : Str} (h : nul ∈ mem) :
    httpParse raw mem = httpParse raw (cut mem ++ [nul]) := by
  have hend : nul ∈ cut mem ++ [nul] :=
    List.mem_append_right _ (List.mem_singleton_self nul)
  rw [httpParse_eq raw h, httpParse_eq raw hend, cut_append_nul,
    cut_of_nulFree (nul_notMem_cut mem)]

/-- The texts an object is made from: a target, not with exactly one
`?`, and no cut past a line's end. -/
def Constructs (text : Str) : Prop :=
  ∃ t, target text = some t ∧ t.count question ≠ 1
    ∧ ∀ line ∈ lines text, ¬ CutsPastEnd line

/-- When an object is made, and what is in it. -/
theorem httpParse_ok_iff (raw : Raw) {mem : Str} (h : nul ∈ mem) :
    (∃ p, httpParse raw mem = .ok p) ↔ Constructs (cut mem) := by
  rw [httpParse_eq raw h]
  unfold Constructs
  rw [← mapM_attribOf]
  cases target (cut mem) with
  | none => simp
  | some t =>
      by_cases hone : t.count question = 1
      · simp [hone]
      · cases (lines (cut mem)).mapM attribOf <;> simp [hone]

theorem httpParse_ok {raw : Raw} {mem : Str} (h : nul ∈ mem) {p : HttpParse}
    (hp : httpParse raw mem = .ok p) :
    p.originData = cut mem ∧ target (cut mem) = some p.route
      ∧ p.requestMethod
          = (lastNamed (lines (cut mem))).or raw.requestMethod := by
  rw [httpParse_eq raw h] at hp
  split at hp
  · cases hp
  · next t ht =>
    split at hp
    · cases hp
    · split at hp
      · cases hp
      · next as has =>
        cases hp
        obtain ⟨horigin, hroute, hmethod⟩ :=
          store_all (.fresh raw (cut mem) t) has
        exact ⟨horigin, by rw [hroute]; exact ht, hmethod⟩

-- ============================================================= the handler

/-- What `set_path` puts behind the pages path: the index page for the
route `/`, and else the route without its first byte. -/
def pageName (route : Str) : Str :=
  if route = bytes "/" then bytes "index.html" else route.drop 1

theorem setPath_eq (pagesPath : Str) {p : HttpParse} (h : p.route ≠ []) :
    setPath pagesPath p
      = .ok { p with route := pagesPath ++ pageName p.route } := by
  unfold setPath pageName
  split
  · rfl
  · rw [substr_of_le (List.length_pos_iff.mpr h), ok_bind,
      List.take_of_length_le (by rw [List.length_drop]; omega)]

/-- `set_path` throws on an empty route. -/
theorem setPath_empty (pagesPath : Str) {p : HttpParse} (h : p.route = []) :
    setPath pagesPath p = .error .substrRange := by
  have hroot : p.route ≠ bytes "/" := by
    rw [h]
    decide
  unfold setPath
  rw [if_neg hroot, h, substr_of_lt Nat.zero_lt_one, error_bind]

theorem setPath_ok_iff {pagesPath : Str} {p : HttpParse} :
    (∃ p', setPath pagesPath p = .ok p') ↔ p.route ≠ [] := by
  by_cases h : p.route = []
  · rw [setPath_empty pagesPath h]
    simp [h]
  · rw [setPath_eq pagesPath h]
    simp [h]

/-- The methods whose handler asks for a path name. -/
def NeedsPath (m : Option Method) : Prop := m = some .get ∨ m = some .put

theorem makeResponse_ok_iff {pagesPath : Str} {p : HttpParse} :
    (∃ r, makeResponse pagesPath p = .ok r)
      ↔ (NeedsPath p.requestMethod → p.route ≠ []) := by
  have hpath : ∀ handler : Handler,
      (∃ r, (setPath pagesPath p >>= fun p' => .ok (handler, p')) = .ok r)
        ↔ p.route ≠ [] := fun handler => by
    rw [exists_bind_ok, ← @setPath_ok_iff pagesPath]
    simp
  have hsplit := split_eq (s := bytes "\r\n\r\n") (List.cons_ne_nil _ _) []
    p.originData
  unfold makeResponse NeedsPath
  cases p.requestMethod with
  | none => simp [dispatch]
  | some m =>
      cases m with
      | get => simpa [dispatch] using hpath .getMethod
      | put => simpa [dispatch] using hpath .putMethod
      | delete => simp [dispatch]
      | post => simp [dispatch, hsplit]
      | head => simp [dispatch]

/-- A response goes to the method's handler, with the path name if the
handler asks for one. -/
theorem makeResponse_ok {pagesPath : Str} {p q : HttpParse} {handler : Handler}
    (h : makeResponse pagesPath p = .ok (handler, q)) :
    handler = dispatch p.requestMethod
      ∧ (NeedsPath p.requestMethod →
          q.route = pagesPath ++ pageName p.route) := by
  have hpath : ∀ {asks : Handler},
      (setPath pagesPath p >>= fun p' => .ok (asks, p')) = .ok (handler, q) →
        handler = asks ∧ q.route = pagesPath ++ pageName p.route := by
    intro asks h
    have hne : p.route ≠ [] := by
      intro hempty
      rw [setPath_empty pagesPath hempty, error_bind] at h
      cases h
    rw [setPath_eq pagesPath hne, ok_bind] at h
    cases h
    exact ⟨rfl, rfl⟩
  unfold makeResponse at h
  unfold NeedsPath
  cases hm : p.requestMethod with
  | none =>
      rw [hm] at h
      cases h
      exact ⟨rfl, by simp⟩
  | some m =>
      rw [hm] at h
      cases m with
      | get => exact ⟨(hpath h).1, fun _ => (hpath h).2⟩
      | put => exact ⟨(hpath h).1, fun _ => (hpath h).2⟩
      | post =>
          have hsep : bytes "\r\n\r\n" ≠ [] := List.cons_ne_nil _ _
          dsimp only [dispatch] at h
          rw [split_eq hsep, ok_bind] at h
          cases h
          exact ⟨rfl, by simp⟩
      | delete =>
          cases h
          exact ⟨rfl, by simp⟩
      | head =>
          cases h
          exact ⟨rfl, by simp⟩

-- ======================================================== the two together

/-- A buffer that holds a NUL. -/
def Terminated : Type := { mem : Str // nul ∈ mem }

/-- The text in a terminated buffer. -/
def Terminated.text (buff : Terminated) : Str := cut buff.1

/-- When a request fails nowhere. For every NUL-terminated buffer, every
contents of the members without an initialiser and every pages path:
construction and path name read no vector past its end and no string
from past its end exactly when a CRLF ends the first line and two spaces
are on it, the word between them does not hold exactly one `?`, no line
cuts past its end, and that word is not empty if the last method named
(or, with none named, the one in memory) is one with a path name. -/
theorem serves_iff (raw : Raw) (pagesPath : Str) (buff : Terminated) :
    (∀ fault, (httpParse raw buff.1 >>= makeResponse pagesPath) ≠ .error fault)
      ↔ ∃ t, target buff.text = some t ∧ t.count question ≠ 1
          ∧ (∀ line ∈ lines buff.text, ¬ CutsPastEnd line)
          ∧ (NeedsPath ((lastNamed (lines buff.text)).or raw.requestMethod) →
              t ≠ []) := by
  have hok : (∀ fault,
        (httpParse raw buff.1 >>= makeResponse pagesPath) ≠ .error fault)
      ↔ ∃ r, (httpParse raw buff.1 >>= makeResponse pagesPath) = .ok r := by
    cases httpParse raw buff.1 >>= makeResponse pagesPath <;> simp
  rw [hok, exists_bind_ok]
  constructor
  · rintro ⟨p, hp, hr⟩
    obtain ⟨t, ht, hone, hcut⟩ := (httpParse_ok_iff raw buff.2).mp ⟨p, hp⟩
    obtain ⟨_, hroute, hmethod⟩ := httpParse_ok buff.2 hp
    have htr : t = p.route := Option.some.inj (ht.symm.trans hroute)
    rw [makeResponse_ok_iff, hmethod, ← htr] at hr
    exact ⟨t, ht, hone, hcut, hr⟩
  · rintro ⟨t, ht, hone, hcut, hneeds⟩
    obtain ⟨p, hp⟩ := (httpParse_ok_iff raw buff.2).mpr ⟨t, ht, hone, hcut⟩
    obtain ⟨_, hroute, hmethod⟩ := httpParse_ok buff.2 hp
    have htr : t = p.route := Option.some.inj (ht.symm.trans hroute)
    refine ⟨p, hp, ?_⟩
    rw [makeResponse_ok_iff, hmethod, ← htr]
    exact hneeds

/-- A query of one field makes the constructor read behind its vector. -/
theorem query_fails :
    httpParse ⟨0, none⟩ (bytes "GET /a?b=1 HTTP/1.1\r\n\r\n" ++ [nul])
      = .error .vectorRange := by
  decide

end TrashyServer.Tool
