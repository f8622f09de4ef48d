/-
The port in the configuration file.

Unlike a path the port has no value to begin with: `get_listen_port`
returns what the object's memory holds until a pair has set it. The
other getters go over the pairs as well, but the port a pass leaves is
the same however often it is made (`portAfter_again`), so what was called
before makes no difference (`port_calls`). What a pair sets it to is what
`atoi` makes of the value, and of a number written out in digits that is
the number, as long as it fits an `int` (`atoi_number`).
-/
import TrashyServer.Config.Proofs.Safe

namespace TrashyServer.Config

-- ================================================================== a number

/-- A digit as a byte. -/
theorem toNat_digit {c : Char} (h : c.isDigit = true) :
    c.toNat.toUInt8.toNat = c.toNat ∧ 48 ≤ c.toNat ∧ c.toNat ≤ 57 := by
  obtain ⟨hlow, hhigh⟩ : 48 ≤ c.toNat ∧ c.toNat ≤ 57 := Char.isDigit_iff_toNat.mp h
  refine ⟨?_, hlow, hhigh⟩
  show c.toNat % 256 = c.toNat
  omega

/-- The bytes of digits are read as digits. -/
theorem digits_eq {l : List Char} (h : ∀ c ∈ l, c.isDigit = true) :
    ∀ n : Nat, digits n (l.map fun c => c.toNat.toUInt8)
      = Nat.ofDigitChars 10 l n := by
  induction l with
  | nil =>
      intro n
      rw [Nat.ofDigitChars_nil]
      rfl
  | cons c l ih =>
      intro n
      obtain ⟨hc, hl⟩ := List.forall_mem_cons.mp h
      obtain ⟨hbyte, hlow, hhigh⟩ := toNat_digit hc
      have hdigit : 48 ≤ c.toNat.toUInt8 ∧ c.toNat.toUInt8 ≤ 57 := by
        rw [UInt8.le_iff_toNat_le, UInt8.le_iff_toNat_le, hbyte]
        exact ⟨hlow, hhigh⟩
      rw [List.map_cons, digits, if_pos hdigit, ih hl, hbyte,
        Nat.ofDigitChars_cons]
      rfl

/-- A number in digits. -/
def number (k : Nat) : Str := bytes (toString k)

theorem number_eq (k : Nat) :
    number k = (Nat.toDigits 10 k).map fun c => c.toNat.toUInt8 := by
  unfold number bytes
  rw [Nat.toString_eq_ofList_toDigits, String.toList_ofList]

/-- It begins with a digit and is all of them. -/
theorem digit_of_mem {k : Nat} {b : UInt8} (h : b ∈ number k) :
    48 ≤ b ∧ b ≤ 57 := by
  rw [number_eq] at h
  obtain ⟨c, hc, rfl⟩ := List.mem_map.mp h
  obtain ⟨hbyte, hlow, hhigh⟩ := toNat_digit
    (Nat.isDigit_of_mem_toDigits (by omega) (Nat.le_refl 10) hc)
  rw [UInt8.le_iff_toNat_le, UInt8.le_iff_toNat_le, hbyte]
  exact ⟨hlow, hhigh⟩

theorem digits_number (k : Nat) : digits 0 (number k) = k := by
  rw [number_eq, digits_eq fun c hc =>
    Nat.isDigit_of_mem_toDigits (by omega) (Nat.le_refl 10) hc]
  exact Nat.ofDigitChars_ten_toDigits

/-- `atoi` reads back a number that fits an `int`. -/
theorem atoi_number {k : Nat} (h : k < 2 ^ 31) : atoi (number k) = k := by
  have hnul : nul ∉ number k := by
    intro hmem
    exact absurd (digit_of_mem hmem).1 (by decide)
  obtain ⟨b, s, hbs⟩ : ∃ b s, number k = b :: s := by
    apply List.exists_cons_of_ne_nil
    rw [number_eq]
    exact fun hnil => Nat.toDigits_ne_nil (List.map_eq_nil_iff.mp hnil)
  have hfirst : 48 ≤ b ∧ b ≤ 57 := digit_of_mem (hbs ▸ List.mem_cons_self ..)
  have hspace : ¬ isSpace b = true := by
    unfold isSpace
    intro hs
    simp only [Bool.or_eq_true, Bool.and_eq_true, decide_eq_true_eq] at hs
    rcases hs with rfl | ⟨-, hle⟩
    · exact absurd hfirst.1 (by decide)
    · exact absurd (UInt8.le_trans hfirst.1 hle) (by decide)
  have htext : (cut (number k)).dropWhile isSpace = number k := by
    rw [cut_of_nulFree hnul, hbs, List.dropWhile_cons_of_neg hspace]
  have hminus : b ≠ 45 := by
    intro heq
    exact absurd (heq ▸ hfirst.1) (by decide)
  have hplus : b ≠ 43 := by
    intro heq
    exact absurd (heq ▸ hfirst.1) (by decide)
  have hlong : min (digits 0 (number k) : Int) ((2 ^ 63 : Nat) - 1) = k := by
    rw [digits_number]
    omega
  unfold atoi
  rw [htext]
  dsimp only
  split
  · next heq =>
    rw [hbs] at heq
    exact absurd (List.cons.inj heq).1 hminus
  · next heq =>
    rw [hbs] at heq
    exact absurd (List.cons.inj heq).1 hplus
  · rw [hlong]
    have hmod : (k : Int) % (2 ^ 64 : Nat) = k := by omega
    rw [hmod, Int.toNat_natCast]
    exact toInt_of_lt h

-- =================================================================== a pass

/-- The port after some pairs. -/
def portAfter (port : Int) (kvs : List (Str × Str)) : Int :=
  kvs.foldl (fun port index =>
    if kindOf index.1 = some .listenPort then atoi index.2 else port) port

theorem port_settle (c : ConfigFileParse) (index : Str × Str) :
    (settle c index).configFileListenPort
      = if kindOf index.1 = some .listenPort then atoi index.2
        else c.configFileListenPort := by
  unfold settle
  split
  · next hkind => simp [hkind]
  · next hkind => simp [hkind]
  · next k hkind => cases k <;> simp [hkind, ConfigFileParse.setPath]
  · next hkind => simp [hkind]

theorem port_pass (c : ConfigFileParse) :
    c.pass.configFileListenPort
      = portAfter c.configFileListenPort c.pathKVData := by
  unfold portAfter ConfigFileParse.pass
  exact (List.foldl_hom ConfigFileParse.configFileListenPort
    fun c x => (port_settle c x).symm).symm

/-- Without a pair for it the port stays. -/
theorem portAfter_of_none {kvs : List (Str × Str)} :
    ∀ {port : Int}, (∀ x ∈ kvs, kindOf x.1 ≠ some .listenPort) →
      portAfter port kvs = port := by
  induction kvs with
  | nil =>
      intro port _
      rfl
  | cons x kvs ih =>
      intro port h
      rw [List.forall_mem_cons] at h
      have hfirst : portAfter port (x :: kvs) = portAfter port kvs := by
        unfold portAfter
        rw [List.foldl_cons, if_neg h.1]
      rw [hfirst]
      exact ih h.2

/-- With one, it is the last one's. -/
theorem portAfter_last {before after : List (Str × Str)} {x : Str × Str}
    (hx : kindOf x.1 = some .listenPort)
    (hafter : ∀ y ∈ after, kindOf y.1 ≠ some .listenPort) (port : Int) :
    portAfter port (before ++ x :: after) = atoi x.2 := by
  unfold portAfter
  rw [List.foldl_append, List.foldl_cons, if_pos hx]
  exact portAfter_of_none hafter

/-- Another pass leaves what the first has left. -/
theorem portAfter_again (port : Int) (kvs : List (Str × Str)) :
    portAfter (portAfter port kvs) kvs = portAfter port kvs := by
  rcases last_or_none (fun x => kindOf x.1 = some .listenPort) kvs with
    ⟨before, x, after, rfl, hx, hafter⟩ | hnone
  · rw [portAfter_last hx hafter, portAfter_last hx hafter]
  · rw [portAfter_of_none hnone, portAfter_of_none hnone]

/-- The object with another port. -/
def ConfigFileParse.withPort (c : ConfigFileParse) (port : Int) :
    ConfigFileParse :=
  { c with configFileListenPort := port }

/-- Nothing but the port itself is made of the port. -/
theorem settle_withPort (c : ConfigFileParse) (port : Int)
    (index : Str × Str) :
    (settle (c.withPort port) index).withPort port
      = (settle c index).withPort port := by
  unfold settle
  split
  · rfl
  · rfl
  · next k hkind => cases k <;> rfl
  · rfl

/-- So a path that is got is the same for any port before it, and so is
whether there is one. -/
theorem getPath_port (port port' : Int) (kvs : List (Str × Str))
    (k : PathKey) :
    ((ConfigFileParse.new port kvs).getPath k).map Prod.fst
      = ((ConfigFileParse.new port' kvs).getPath k).map Prod.fst := by
  have hpass : (ConfigFileParse.new port kvs).pass.withPort port'
      = (ConfigFileParse.new port' kvs).pass.withPort port' := by
    have hfold : ∀ c : ConfigFileParse, (kvs.foldl settle c).withPort port'
        = kvs.foldl (fun c x => (settle c x).withPort port')
          (c.withPort port') := fun c =>
      (List.foldl_hom (fun c : ConfigFileParse => c.withPort port')
        fun c x => settle_withPort c port' x).symm
    exact (hfold (.new port kvs)).trans (hfold (.new port' kvs)).symm
  have hpath : ∀ c : ConfigFileParse, (c.withPort port').path k = c.path k := by
    intro c
    cases k <;> rfl
  by_cases hbare : Uncovered [] kvs
  · rw [getPath_eq, getPath_eq, parseSetting_of_uncovered hbare,
      parseSetting_of_uncovered hbare]
  · rw [getPath_eq, getPath_eq, parseSetting_of_covered hbare,
      parseSetting_of_covered hbare, ok_bind, ok_bind]
    have hsame : (ConfigFileParse.new port kvs).pass.path k
        = (ConfigFileParse.new port' kvs).pass.path k := by
      rw [← hpath, hpass, hpath]
    unfold ConfigFileParse.pass at hsame
    rw [hsame]
    split
    · rfl
    · rfl

-- ================================================================= the calls

/-- A call leaves the port of its pass. -/
theorem port_call {c c' : ConfigFileParse} {g : Getter}
    (h : c.call g = .ok c') :
    c'.configFileListenPort
      = portAfter c.configFileListenPort c.pathKVData := by
  by_cases hcovered : Uncovered c.rootDir c.pathKVData
  · rw [call_of_uncovered hcovered] at h
    cases h
  · rw [← port_pass]
    cases hg : g.path with
    | none =>
        rw [call_of_no_path hg, parseSetting_of_covered hcovered] at h
        cases h
        rfl
    | some k =>
        rw [call_of_path hg, getPath_eq, parseSetting_of_covered hcovered,
          ok_bind] at h
        split at h
        · cases h
        · cases h
          cases k with
          | htmlPages => rfl
          | staticPath => rfl

/-- Calls leave the port of a pass, if there are any. -/
theorem port_calls {kvs : List (Str × Str)} (gs : List Getter) :
    ∀ {c c' : ConfigFileParse}, Loaded kvs c → c.calls gs = .ok c' →
      c'.configFileListenPort
        = if gs = [] then c.configFileListenPort
          else portAfter c.configFileListenPort kvs := by
  induction gs with
  | nil =>
      intro c c' _ h
      cases h
      rfl
  | cons g gs ih =>
      intro c c' hc h
      have hcons : c.calls (g :: gs) = c.call g >>= fun c => c.calls gs :=
        List.foldlM_cons ..
      rw [hcons] at h
      cases hcall : c.call g with
      | error e =>
          rw [hcall, error_bind] at h
          cases h
      | ok c₁ =>
          rw [hcall, ok_bind] at h
          have hport := port_call hcall
          rw [hc.data] at hport
          rw [ih (loaded_call hc hcall).1 h, hport, portAfter_again,
            if_neg (List.cons_ne_nil _ _), ite_self]

-- ================================================================== the file

/-- The object is built from the file, some getters are called, and then
`get_listen_port` returns `n`. -/
def Listens (file : ConfigText) (port : Int) (gs : List Getter) (n : Int) :
    Prop :=
  ∃ m c c' c'', configFileParse m port (.opens file.text .endOfFile)
      = some (.ok c)
    ∧ c.calls gs = .ok c' ∧ c'.getListenPort = .ok (n, c'')

/-- The last value that is given for the port. -/
def ConfigText.lastPort (file : ConfigText) : Option Str :=
  (file.pairs.filter fun x => kindOf x.1 = some .listenPort).getLast?.map
    Prod.snd

theorem portAfter_lastPort (file : ConfigText) (port : Int) :
    portAfter port file.pairs = (file.lastPort.map atoi).getD port := by
  unfold ConfigText.lastPort
  rcases last_or_none (fun x => kindOf x.1 = some .listenPort) file.pairs with
    ⟨before, x, after, heq, hx, hafter⟩ | hnone
  · have hnil : after.filter (fun x => kindOf x.1 = some .listenPort) = [] := by
      apply List.filter_eq_nil_iff.mpr
      intro y hy htrue
      exact hafter y hy (of_decide_eq_true htrue)
    have hcons : (x :: after).filter (fun x => kindOf x.1 = some .listenPort)
        = x :: after.filter (fun x => kindOf x.1 = some .listenPort) :=
      List.filter_cons_of_pos (decide_eq_true hx)
    rw [heq, portAfter_last hx hafter, List.filter_append, hcons, hnil,
      List.getLast?_concat]
    rfl
  · have hnil : file.pairs.filter (fun x => kindOf x.1 = some .listenPort)
        = [] := by
      apply List.filter_eq_nil_iff.mpr
      intro y hy htrue
      exact hnone y hy (of_decide_eq_true htrue)
    rw [portAfter_of_none hnone, hnil]
    rfl

/-- `get_listen_port` reads the port behind its pass. -/
theorem getListenPort_eq (c : ConfigFileParse) :
    c.getListenPort
      = (c.call .getListenPort).map fun c' => (c'.configFileListenPort, c') := by
  show _ = (c.getListenPort.map Prod.snd).map _
  unfold ConfigFileParse.getListenPort
  cases c.parseSetting with
  | error e => rfl
  | ok c₁ => rfl

theorem getListenPort_ok_iff {c c'' : ConfigFileParse} {n : Int} :
    c.getListenPort = .ok (n, c'')
      ↔ c.call .getListenPort = .ok c'' ∧ n = c''.configFileListenPort := by
  rw [getListenPort_eq]
  cases c.call .getListenPort with
  | error e => exact iff_of_false (fun h => nomatch h) (fun h => nomatch h.1)
  | ok c₁ =>
      constructor
      · intro h
        cases h
        exact ⟨rfl, rfl⟩
      · intro h
        obtain ⟨hcall, hn⟩ := h
        cases hcall
        rw [hn]
        rfl

/-- A getter more. -/
theorem calls_concat_ok_iff {c c'' : ConfigFileParse} {gs : List Getter}
    {g : Getter} :
    c.calls (gs ++ [g]) = .ok c''
      ↔ ∃ c', c.calls gs = .ok c' ∧ c'.call g = .ok c'' := by
  have happ : c.calls (gs ++ [g])
      = c.calls gs >>= fun c' => c'.call g >>= pure := List.foldlM_append ..
  rw [happ]
  cases c.calls gs with
  | error e =>
      refine iff_of_false (fun h => nomatch h) ?_
      intro h
      obtain ⟨c', hc', -⟩ := h
      cases hc'
  | ok c₁ =>
      rw [ok_bind, bind_pure]
      constructor
      · intro h
        exact ⟨c₁, rfl, h⟩
      · intro h
        obtain ⟨c', hc', hcall⟩ := h
        cases hc'
        exact hcall

/-- The port a configuration file gives. However its lines are ordered
and repeated and whichever getters were called before,
`get_listen_port` returns a number exactly if the object outlives the
calls, and then it is the one given last: if that is written in digits
and fits an `int` it is read back, and if no line gives one it is what
the memory of the object held. -/
theorem listens_iff (file : ConfigText) (port : Int) (gs : List Getter)
    (n : Int) :
    Listens file port gs n
      ↔ Survives file port (gs ++ [.getListenPort])
        ∧ n = (file.lastPort.map atoi).getD port
        ∧ (file.lastPort = none → n = port)
        ∧ ∀ k < 2 ^ 31, file.lastPort = some (number k) → n = k := by
  have hvalue : ∀ {m : Nat} {c c'' : ConfigFileParse},
      configFileParse m port (.opens file.text .endOfFile) = some (.ok c) →
      c.calls (gs ++ [.getListenPort]) = .ok c'' →
      c''.configFileListenPort = (file.lastPort.map atoi).getD port := by
    intro m c c'' hnew hcalls
    obtain ⟨-, rfl⟩ := (configFileParse_ok_iff file port c).mp ⟨m, hnew⟩
    rw [port_calls _ (loaded_new port file.pairs) hcalls,
      if_neg (List.append_ne_nil_of_right_ne_nil _ (List.cons_ne_nil _ _)),
      ← portAfter_lastPort]
    rfl
  constructor
  · intro h
    obtain ⟨m, c, c', c'', hnew, hcalls, hget⟩ := h
    obtain ⟨hcall, rfl⟩ := getListenPort_ok_iff.mp hget
    have hall := calls_concat_ok_iff.mpr ⟨c', hcalls, hcall⟩
    rw [hvalue hnew hall]
    refine ⟨⟨m, c, c'', hnew, hall⟩, rfl, fun hnone => ?_, fun k hk hlast => ?_⟩
    · rw [hnone]
      rfl
    · rw [hlast]
      exact atoi_number hk
  · intro h
    obtain ⟨⟨m, c, c'', hnew, hall⟩, rfl, -⟩ := h
    obtain ⟨c', hcalls, hcall⟩ := calls_concat_ok_iff.mp hall
    exact ⟨m, c, c', c'', hnew, hcalls,
      getListenPort_ok_iff.mpr ⟨hcall, (hvalue hnew hall).symm⟩⟩

end TrashyServer.Config
