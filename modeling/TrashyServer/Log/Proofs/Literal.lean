/-
Log arguments without a percent sign, and formats with one argument.

`expand_slots_iff` asks of every filled slot that the loop can read over
it from its third character on. Where neither the arguments nor the
literal text hold a percent sign there is nothing to see
(`expands_of_plain`). Of a format whose only directive is a `%s` it is
the argument alone that decides: what stands behind it can neither make
nor hide a directive (`expand_one_iff`). So it is of the last argument
of any format, when those before it are plain (`expand_last_iff`).

A text that is expanded is printed, but for one level where the line has
to fit an array first (`loggingIn_ok_iff`).
-/
import TrashyServer.Log.Proofs.Expand

namespace TrashyServer.Log

-- ======================================================= no percent sign

theorem seek_of_plain {w : Str} (h : percent ∉ w) : seek w = none := by
  induction w with
  | nil => rfl
  | cons c w ih =>
      rw [List.mem_cons, not_or] at h
      rw [seek_of_ne (Ne.symm h.1), ih h.2]
      rfl

theorem clear_of_plain {w : Str} (h : percent ∉ w) : clear w = true := by
  fun_induction clear w with
  | case1 => rfl
  | case2 c => simpa using fun heq : c = percent => h (heq ▸ List.mem_cons_self ..)
  | case3 c d w hc ih => exact ih fun hmem => h (List.mem_cons_of_mem _ hmem)
  | case4 c d w hc ih =>
      rw [not_not] at hc
      exact absurd (hc ▸ List.mem_cons_self ..) h

/-- Text without a percent sign is read over. -/
theorem seek_plain_append {a : Str} (h : percent ∉ a) (w : Str) :
    seek (a ++ w) = (seek w).map (· + a.length) := by
  induction a with
  | nil => exact Option.map_id'.symm
  | cons c a ih =>
      rw [List.mem_cons, not_or] at h
      rw [List.cons_append, seek_of_ne (Ne.symm h.1), ih h.2, Option.map_map]
      rfl

/-- And behind a text it makes no directive, unless a percent sign comes
to stand in front of a letter. -/
theorem seek_append_plain {r : Str} (hr : percent ∉ r)
    (hhead : ∀ d, r.head? = some d → d ≠ letterS ∧ d ≠ letterD) (w : Str) :
    seek (w ++ r) = none ↔ seek w = none := by
  fun_induction seek w with
  | case1 => exact iff_of_true (seek_of_plain hr) rfl
  | case2 c =>
      refine iff_of_true ?_ rfl
      cases r with
      | nil => rfl
      | cons d r =>
          obtain ⟨hs, hd⟩ := hhead d rfl
          show seek (c :: d :: r) = none
          unfold seek
          split
          · rw [seek_of_plain hr]
            rfl
          · rw [if_neg (not_or.mpr ⟨hs, hd⟩),
              seek_of_plain fun hmem => hr (List.mem_cons_of_mem _ hmem)]
            rfl
  | case3 c d w hc ih =>
      rw [List.cons_append, seek_of_ne hc, Option.map_eq_none_iff,
        Option.map_eq_none_iff]
      exact ih
  | case4 c d w hc hd =>
      refine iff_of_false ?_ (Option.some_ne_none _)
      rw [List.cons_append, List.cons_append, seek, if_neg hc, if_pos hd]
      exact Option.some_ne_none _
  | case5 c d w hc hd ih =>
      rw [List.cons_append, List.cons_append, seek, if_neg hc, if_neg hd,
        Option.map_eq_none_iff, Option.map_eq_none_iff]
      exact ih

-- ========================================================== one argument

/-- A text that the loop, reading on in it, takes as it is. -/
def Literal (s : Str) : Prop := seek (s.drop 2) = none

instance (s : Str) : Decidable (Literal s) :=
  inferInstanceAs (Decidable (seek (s.drop 2) = none))

/-- What stands behind the argument does not matter. -/
theorem literal_append_iff {r : Str} (hr : percent ∉ r)
    (hhead : ∀ d, r.head? = some d → d ≠ letterS ∧ d ≠ letterD) (s : Str) :
    seek ((s ++ r).drop 2) = none ↔ Literal s := by
  unfold Literal
  rcases Nat.le_total 2 s.length with hlong | hshort
  · rw [List.drop_append_of_le_length hlong]
    exact seek_append_plain hr hhead _
  · have hnil : s.drop 2 = [] := List.drop_eq_nil_of_le hshort
    rw [List.drop_append, hnil]
    refine iff_of_true (seek_of_plain fun hmem => hr ?_) rfl
    exact List.mem_of_mem_drop hmem

/-- A format whose only directive is a `%s` is expanded exactly if the
argument is literal, and then to what it is meant for. -/
theorem expand_one_iff {a r : Str} (ha : percent ∉ a) (hr : percent ∉ r)
    (hhead : ∀ d, r.head? = some d → d ≠ letterS ∧ d ≠ letterD) (p : CStr)
    {e : Expansion} :
    expand (a ++ percent :: letterS :: r) 0 [.string p] [] = .ok e
      ↔ Literal p.val ∧ e = ⟨a ++ p.val ++ r, [],
        [(a ++ percent :: letterS :: r, a.length + 1)]⟩ := by
  have hsee : seek (a ++ percent :: letterS :: r) = some a.length := by
    rw [seek_plain_append ha, seek, if_neg (not_not.mpr rfl), if_pos (.inl rfl)]
    exact congrArg some (Nat.zero_add _)
  rw [expand_one_string p hsee, ← literal_append_iff hr hhead]
  cases seek ((p.val ++ r).drop 2) with
  | none =>
      constructor
      · intro h
        cases h
        exact ⟨rfl, rfl⟩
      · intro h
        rw [h.2]
  | some j =>
      constructor
      · intro h
        cases h
      · intro h
        exact absurd h.1 (Option.some_ne_none j)

-- ========================================================== plain slots

/-- A slot with no percent sign in what it is filled with. -/
def Slot.Plain (s : Slot) : Prop :=
  s.arg.Fits ∧ 2 ≤ s.filled.length ∧ percent ∉ s.filled

theorem clean_of_plain {slots : List Slot} (h : ∀ s ∈ slots, s.Plain) :
    Clean slots := by
  induction slots with
  | nil => trivial
  | cons s slots ih =>
      obtain ⟨⟨hfits, hlen, hplain⟩, hrest⟩ := List.forall_mem_cons.mp h
      have hdrop : percent ∉ s.filled.drop 2 := fun hmem =>
        hplain (List.mem_of_mem_drop hmem)
      refine ⟨hfits, ?_, ih hrest⟩
      cases slots with
      | nil => exact seek_of_plain hdrop
      | cons t slots => exact ⟨hlen, clear_of_plain hdrop⟩

/-- A format whose slots are all plain is expanded. -/
theorem expands_of_plain {f : Format} (hfront : percent ∉ plainText f.front)
    (h : ∀ s ∈ f.slots, s.Plain) : f.Expands := by
  refine (expand_slots_iff ?_).mpr (clean_of_plain h)
  cases hs : f.slots with
  | nil => exact seek_of_plain hfront
  | cons s slots =>
      obtain ⟨d, r, heq, hd⟩ := sources_eq s slots
      refine ⟨Nat.zero_le _, ?_⟩
      rw [List.drop_zero, seek_plain_append hfront, heq, seek,
        if_neg (not_not.mpr rfl), if_pos hd]
      exact congrArg some (Nat.zero_add _)

/-- Literal text without a percent sign. -/
def plain (s : Str) : List Plain :=
  s.filterMap fun c =>
    if h : c ≠ percent ∧ c ≠ nul then some (.char ⟨c, h⟩) else none

/-- Behind plain slots the loop comes to the last one, and that alone
decides whether there is an argument for all it reads. -/
theorem expand_last_iff {slots : List Slot} {last : Slot}
    (h : ∀ s ∈ slots, s.Plain) (hlast : last.arg.Fits) :
    ∀ {pre : Str} {i : Nat} {taken : List (Str × Nat)},
      AtPlace pre i (slots ++ [last]) →
      ((∃ e, expand (pre ++ sources (slots ++ [last])) i
          ((slots ++ [last]).map Slot.arg) taken = .ok e)
        ↔ seek (last.filled.drop 2) = none) := by
  induction slots with
  | nil =>
      intro pre i taken hplace
      obtain ⟨hi, hseek⟩ := hplace
      have hindex : i + (pre.length - i) = pre.length := by omega
      have hdrop : (pre ++ last.filled ++ sources []).drop (pre.length + 2)
          = last.filled.drop 2 := by
        rw [show sources [] = [] from rfl, List.append_nil, List.drop_append,
          List.drop_of_length_le (by omega), List.nil_append,
          Nat.add_sub_cancel_left]
      rw [List.nil_append]
      rw [expand_seek _ taken rfl hseek, hindex, List.map_singleton,
        expand_slot, if_pos hlast]
      cases hbehind : seek (last.filled.drop 2) with
      | none =>
          rw [expand_of_none _ _ hdrop hbehind]
          exact iff_of_true ⟨_, rfl⟩ rfl
      | some j =>
          rw [expand_no_args (hdrop ▸ hbehind)]
          refine iff_of_false ?_ (Option.some_ne_none j)
          intro hgiven
          obtain ⟨e, he⟩ := hgiven
          cases he
  | cons s slots ih =>
      intro pre i taken hplace
      obtain ⟨⟨hfits, hlen, hplain⟩, hrest⟩ := List.forall_mem_cons.mp h
      have hi : i ≤ pre.length := hplace.1
      have hseek : seek ((pre ++ sources (s :: (slots ++ [last]))).drop i)
          = some (pre.length - i) := hplace.2
      have hindex : i + (pre.length - i) = pre.length := by omega
      have hclear : clear (s.filled.drop 2) = true :=
        clear_of_plain fun hmem => hplain (List.mem_of_mem_drop hmem)
      have hnext : AtPlace (pre ++ s.filled) (pre.length + 2)
          (slots ++ [last]) := by
        rw [atPlace_next_iff]
        cases slots with
        | nil => exact ⟨hlen, hclear⟩
        | cons t slots => exact ⟨hlen, hclear⟩
      rw [List.cons_append]
      rw [expand_seek _ taken rfl hseek, hindex, List.map_cons, expand_slot,
        if_pos hfits]
      exact ih hrest hnext

-- ================================================================= one line

/-- A line at level `ERROR` has room for the text, the time, and 15 bytes
more; those of the other levels are not made in an array. -/
theorem loggingIn_ok_iff (level : Level) (time : CStr) (text : Str) :
    (∃ line, loggingIn level time text = .ok line)
      ↔ (level = .error → time.val.length + strlen text + 14 < 4096) := by
  cases level with
  | debug | info | warn => exact iff_of_true ⟨_, rfl⟩ fun h => nomatch h
  | error =>
      have hlen : (bytes "[ ERROR ] " ++ (time.val ++ bytes " , " ++ cut text
          ++ bytes "\n")).length = time.val.length + strlen text + 14 := by
        have hfront : (bytes "[ ERROR ] ").length = 10 := rfl
        have hmiddle : (bytes " , ").length = 3 := rfl
        have hend : (bytes "\n").length = 1 := rfl
        simp only [List.length_append, hfront, hmiddle, hend]
        unfold strlen
        omega
      rw [imp_iff_right rfl]
      unfold loggingIn defaultMaxlength
      dsimp only
      rw [hlen]
      split
      · next hroom => exact iff_of_true ⟨_, rfl⟩ hroom
      · next hroom =>
        refine iff_of_false ?_ hroom
        intro h
        obtain ⟨line, hline⟩ := h
        cases hline

/-- A call whose format is expanded. -/
theorem logging_iff {level : Level} {fmt : CStr} {args : List Arg}
    {e : Expansion} (h : expand fmt.val 0 args [] = .ok e) (time : CStr) :
    (∃ line, logging time level fmt args = .ok line)
      ↔ (level = .error → time.val.length + strlen e.fmtStr + 14 < 4096) := by
  rw [← loggingIn_ok_iff]
  unfold logging
  rw [h]
  exact Iff.rfl

/-- A call that prints a line has expanded its format. -/
theorem expand_of_logging {level : Level} {fmt : CStr} {args : List Arg}
    {time : CStr} {line : Str} (h : logging time level fmt args = .ok line) :
    ∃ e, expand fmt.val 0 args [] = .ok e := by
  unfold logging at h
  cases hrun : expand fmt.val 0 args [] with
  | error e =>
      rw [hrun] at h
      change Except.error e = _ at h
      cases h
  | ok e => exact ⟨e, rfl⟩

/-- A call with one argument, a string, behind plain text and in front of
some. -/
theorem logging_one_iff {level : Level} {fmt p : CStr} {a r : Str}
    (hfmt : fmt.val = a ++ percent :: letterS :: r)
    (ha : percent ∉ a ∧ nul ∉ a) (hr : percent ∉ r ∧ nul ∉ r)
    (hhead : ∀ d, r.head? = some d → d ≠ letterS ∧ d ≠ letterD)
    (time : CStr) :
    (∃ line, logging time level fmt [.string p] = .ok line)
      ↔ Literal p.val ∧ (level = .error → time.val.length
        + (a.length + p.val.length + r.length) + 14 < 4096) := by
  have hlen : strlen (a ++ p.val ++ r)
      = a.length + p.val.length + r.length := by
    have hnul : nul ∉ a ++ p.val ++ r := by
      simp only [List.mem_append, not_or]
      exact ⟨⟨ha.2, p.property⟩, hr.2⟩
    rw [strlen_of_nulFree hnul, List.length_append, List.length_append]
  by_cases hliteral : Literal p.val
  · have hexpand := (expand_one_iff ha.1 hr.1 hhead p).mpr ⟨hliteral, rfl⟩
    rw [← hfmt] at hexpand
    rw [logging_iff hexpand]
    dsimp only
    rw [hlen]
    exact (and_iff_right hliteral).symm
  · refine iff_of_false ?_ fun h => hliteral h.1
    intro h
    obtain ⟨line, hline⟩ := h
    obtain ⟨e, he⟩ := expand_of_logging hline
    rw [hfmt] at he
    exact hliteral ((expand_one_iff ha.1 hr.1 hhead p).mp he).1

/-- A call whose last argument is a string at the format's end, and whose
others are plain, at a level where no line is too long. -/
theorem logging_last_iff {level : Level} {fmt p : CStr} {slots : List Slot}
    (hfmt : fmt.val = sources (slots ++ [⟨.string p, []⟩]))
    (h : ∀ s ∈ slots, s.Plain) (hlevel : level ≠ .error) (time : CStr) :
    (∃ line, logging time level fmt
        (slots.map Slot.arg ++ [.string p]) = .ok line)
      ↔ Literal p.val := by
  have hplace : AtPlace [] 0 (slots ++ [⟨.string p, []⟩]) := by
    cases slots with
    | nil => exact ⟨Nat.zero_le _, rfl⟩
    | cons s slots =>
        obtain ⟨d, r, heq, hd⟩ := sources_eq s (slots ++ [⟨.string p, []⟩])
        refine ⟨Nat.zero_le _, ?_⟩
        show seek (sources (s :: (slots ++ [⟨.string p, []⟩]))) = some 0
        rw [heq, seek, if_neg (not_not.mpr rfl), if_pos hd]
  have hend : (⟨.string p, []⟩ : Slot).filled = p.val := List.append_nil p.val
  have hfits : (⟨.string p, []⟩ : Slot).arg.Fits := trivial
  have hlast := @expand_last_iff slots _ h hfits [] 0 [] hplace
  rw [hend, List.nil_append, ← hfmt, List.map_append] at hlast
  refine Iff.trans ?_ hlast
  constructor
  · intro hprinted
    obtain ⟨line, hline⟩ := hprinted
    exact expand_of_logging hline
  · intro hexpanded
    obtain ⟨e, he⟩ := hexpanded
    exact (logging_iff he time).mpr fun herror => absurd herror hlevel

end TrashyServer.Log
