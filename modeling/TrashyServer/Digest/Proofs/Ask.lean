/-
What a question for the digest leaves behind.

`final` runs the padding and the count through the ordinary `update` and
then puts the chaining state and the count back. What it does not put
back is `__buff`: the count was written over its last eight bytes
(`digest_buff`). A later call that completes a block writes `__buff`
from the number of waiting bytes on, so the eight bytes are gone if it
finds at most 56 waiting, and are part of the block if it finds more.

# The two runs

`Beside` ties an object that has been asked to one that has not, after
the same bytes: only the ends of their buffers may differ, and `note`
says by what. A call completes the same block in both exactly when the
bytes that differ are not in front of it (`Beside.fed_update_iff`), and
then the buffers agree again (`Beside.update`). Along a whole run this
is `Harmless`, and the digest is taken over the same blocks exactly
when it holds at every call, the padding included (`undisturbed_iff`).
-/
import TrashyServer.Digest.Proofs.Feed
import TrashyServer.Digest.Transform

namespace TrashyServer.Digest

open Blocks (full rest)

variable {T : Transformers}

-- ================================================================= final

/-- The two calls `final` makes. -/
def Md5.finalCalls (s : Md5) : List Str :=
  [padding.take (padLen s.index), encode [s.count0, s.count1]]

/-- `digest` on an object that is not finished. -/
theorem digest_of_not_finish {s : Md5} (h : s.finish = false) :
    s.digest T = { s.updates T s.finalCalls with
      digestBytes := (s.updates T s.finalCalls).magicNum.bytes
      magicNum := s.magicNum, count0 := s.count0, count1 := s.count1 } := by
  have hnot : ¬ s.finish = true := by
    rw [h]
    exact Bool.false_ne_true
  unfold Md5.digest
  rw [if_neg hnot]
  rfl

theorem length_padding {i : Nat} (hi : i < 64) :
    (padding.take (padLen i)).length = padLen i := by
  have hlen : padding.length = 64 := rfl
  have hle : padLen i ≤ 64 := by
    unfold padLen
    split <;> omega
  rw [List.length_take, hlen]
  omega

theorem length_encodePair (x y : UInt64) : (encode [x, y]).length = 8 := rfl

/-- The object that `final` takes the answer from. -/
theorem Tracks.final {s : Md5} {m : Str} (h : Tracks T s m) :
    Tracks T (s.updates T s.finalCalls) (m ++ s.finalCalls.flatten) :=
  h.updates

/-- Behind the padding eight bytes are missing to a block. -/
theorem Tracks.index_padded {s : Md5} {m : Str} (h : Tracks T s m) :
    (s.update T (padding.take (padLen s.index))).index = 56 := by
  have hindex := h.index_eq
  have hlt := s.index_lt
  rw [(h.update _).index_eq, List.length_append, length_padding hlt]
  unfold padLen
  split <;> omega

/-- `__buff` after a call that completes a block, -/
theorem update_buff_of_le {s : Md5} {input : Str}
    (h : 64 - s.index ≤ input.length) :
    (s.update T input).buff.val
      = s.buff.val.take s.index ++ input.take (64 - s.index) := by
  rw [update_of_le h, Md5.feed_eq]
  rfl

/-- and after one that completes none. -/
theorem update_buff_of_lt {s : Md5} {input : Str}
    (h : input.length < 64 - s.index) :
    (s.update T input).buff = s.buff := by
  rw [update_of_lt h]
  rfl

/-- The blocks handed over by the one, -/
theorem update_fed_of_le {s : Md5} {input : Str}
    (h : 64 - s.index ≤ input.length) :
    (s.update T input).fed
      = s.fed ++ (s.buff.val.take s.index ++ input.take (64 - s.index))
          :: full 64 (input.drop (64 - s.index)) := by
  rw [update_of_le h, Md5.feed_eq]
  rfl

/-- and by the other. -/
theorem update_fed_of_lt {s : Md5} {input : Str}
    (h : input.length < 64 - s.index) : (s.update T input).fed = s.fed := by
  rw [update_of_lt h]
  rfl

/-- A question writes the count over the last eight bytes. -/
theorem digest_buff {s : Md5} {m : Str} (h : Tracks T s m) :
    (s.digest T).buff.val
      = s.buff.val.take 56 ++ encode [s.count0, s.count1] := by
  have hlt := s.index_lt
  have hpadded := h.index_padded
  have hpadlen := length_padding hlt
  have hfront : ((s.update T (padding.take (padLen s.index))).buff.val).take 56
      = s.buff.val.take 56 := by
    by_cases hi : s.index < 56
    · rw [update_buff_of_lt]
      rw [hpadlen]
      unfold padLen
      rw [if_pos hi]
      omega
    · have hlen : (s.buff.val.take s.index).length = s.index := by
        rw [List.length_take, s.buff.property]
        omega
      have hfill : 64 - s.index ≤ (padding.take (padLen s.index)).length := by
        rw [hpadlen]
        unfold padLen
        rw [if_neg hi]
        omega
      rw [update_buff_of_le hfill, List.take_append_of_le_length (by omega),
        List.take_take, Nat.min_eq_left (by omega)]
  have hbits : 64 - (s.update T (padding.take (padLen s.index))).index
      ≤ (encode [s.count0, s.count1]).length := by
    rw [hpadded, length_encodePair]
  rw [digest_of_not_finish h.finish]
  show ((s.update T (padding.take (padLen s.index))).update T
    (encode [s.count0, s.count1])).buff.val = _
  rw [update_buff_of_le hbits, hpadded, hfront]
  rfl

-- ======================================================== the two objects

/-- A buffer with the last eight bytes a question left, if any. -/
def stained (b : Str) : Option Str → Str
  | none => b
  | some bits => b.take 56 ++ bits

/-- What the question left agrees with the buffer as far as `i`. -/
def SameFront (b : Str) (note : Option Str) (i : Nat) : Prop :=
  ∀ bits ∈ note, (b.drop 56).take (i - 56) = bits.take (i - 56)

theorem stained_take_iff {b : Str} (hb : b.length = 64) (note : Option Str)
    (i : Nat) : (stained b note).take i = b.take i ↔ SameFront b note i := by
  cases note with
  | none => simp [stained, SameFront]
  | some bits =>
      have hlen : (b.take 56).length = 56 := by
        rw [List.length_take]
        omega
      have hsplit : b.take i = (b.take 56).take i
          ++ (b.drop 56).take (i - 56) := by
        conv => lhs; rw [← List.take_append_drop 56 b]
        rw [List.take_append, hlen]
      unfold stained SameFront
      rw [hsplit, List.take_append, hlen, List.append_cancel_left_eq]
      simp [eq_comm]

/-- An object that has been asked and one that has not, after the same
bytes. -/
structure Beside (T : Transformers) (s t : Md5) (note : Option Str)
    (m : Str) : Prop where
  asked : Tracks T s m
  plain : Tracks T t m
  count1 : s.count1 = t.count1
  buff : s.buff.val = stained t.buff.val note
  note_length : ∀ bits ∈ note, bits.length = 8

theorem Beside.index_eq {s t : Md5} {note : Option Str} {m : Str}
    (h : Beside T s t note m) : s.index = t.index := by
  rw [h.asked.index_eq, h.plain.index_eq]

theorem Beside.fed_length {s t : Md5} {note : Option Str} {m : Str}
    (h : Beside T s t note m) : s.fed.length = t.fed.length := by
  rw [h.asked.fed, h.plain.fed]

theorem beside_reset (s : Md5) : Beside T s.reset s.reset none [] :=
  ⟨tracks_reset s, tracks_reset s, rfl, rfl, fun _ h => by cases h⟩

/-- A call hands the same blocks over in both exactly when the bytes it
finds waiting are the same. -/
theorem Beside.fed_update_iff {s t : Md5} {note : Option Str} {m : Str}
    (h : Beside T s t note m) (u : Str) :
    (s.update T u).fed = (t.update T u).fed
      ↔ s.fed = t.fed
        ∧ (64 ≤ t.index + u.length → SameFront t.buff.val note t.index) := by
  have hindex := h.index_eq
  have hlt := t.index_lt
  by_cases hle : 64 - t.index ≤ u.length
  · have hs : 64 - s.index ≤ u.length := by rwa [hindex]
    have hfill : 64 ≤ t.index + u.length := by omega
    rw [update_fed_of_le hle, update_fed_of_le hs, hindex, h.buff,
      ← stained_take_iff t.buff.property]
    constructor
    · intro heq
      obtain ⟨hfed, hcons⟩ := List.append_inj heq h.fed_length
      refine ⟨hfed, fun _ => ?_⟩
      exact List.append_cancel_right (List.cons.inj hcons).1
    · rintro ⟨hfed, hfront⟩
      rw [hfed, hfront hfill]
  · have hs : u.length < 64 - s.index := by omega
    rw [update_fed_of_lt (Nat.not_le.mp hle), update_fed_of_lt hs]
    constructor
    · intro hfed
      exact ⟨hfed, fun hfill => by omega⟩
    · intro hboth
      exact hboth.1

theorem count1_update (s : Md5) (u : Str) :
    (s.update T u).count1 = (s.count u.length).count1 := by
  by_cases hle : 64 - s.index ≤ u.length
  · rw [update_of_le hle, Md5.feed_eq]
    rfl
  · rw [update_of_lt (Nat.not_le.mp hle)]
    rfl

/-- The high word counts on alike in both. -/
theorem Tracks.update_count1_eq {s t : Md5} {m : Str} (hs : Tracks T s m)
    (ht : Tracks T t m) (h : s.count1 = t.count1) (u : Str) :
    (s.update T u).count1 = (t.update T u).count1 := by
  rw [count1_update, count1_update]
  unfold Md5.count
  dsimp only
  rw [hs.count0, ht.count0, h]

/-- And then the objects stay side by side; a completed block takes the
difference away. -/
theorem Beside.update {s t : Md5} {note : Option Str} {m : Str}
    (h : Beside T s t note m) (u : Str)
    (hfront : 64 ≤ t.index + u.length →
      SameFront t.buff.val note t.index) :
    Beside T (s.update T u) (t.update T u)
      (if 64 ≤ t.index + u.length then none else note) (m ++ u) := by
  have hindex := h.index_eq
  have hlt := t.index_lt
  refine ⟨h.asked.update u, h.plain.update u,
    h.asked.update_count1_eq h.plain h.count1 u, ?_, ?_⟩
  · by_cases hle : 64 ≤ t.index + u.length
    · have hsame := (stained_take_iff t.buff.property note t.index).mpr
        (hfront hle)
      rw [if_pos hle, update_buff_of_le (by omega), hindex, h.buff, hsame]
      exact (update_buff_of_le (by omega)).symm
    · rw [if_neg hle, update_buff_of_lt (by omega), h.buff,
        update_buff_of_lt (by omega)]
  · intro bits hbits
    split at hbits
    · cases hbits
    · exact h.note_length bits hbits

/-- The object behind a question. -/
theorem Tracks.ask {s : Md5} {m : Str} (h : Tracks T s m) :
    Tracks T (s.asked (s.digest T)) m := by
  have hfinish := h.final.finish
  rw [digest_of_not_finish h.finish]
  exact ⟨h.count0, h.fed, h.magicNum, hfinish⟩

/-- A question changes the end of the buffer and nothing else. -/
theorem Beside.ask {s t : Md5} {note : Option Str} {m : Str}
    (h : Beside T s t note m) :
    Beside T (s.asked (s.digest T)) t (some (encode [t.count0, t.count1])) m := by
  have hcount0 : s.count0 = t.count0 := by
    rw [h.asked.count0, h.plain.count0]
  have hcount1 : (s.asked (s.digest T)).count1 = s.count1 := by
    rw [digest_of_not_finish h.asked.finish]
    rfl
  have hfront : s.buff.val.take 56 = t.buff.val.take 56 := by
    rw [h.buff, stained_take_iff t.buff.property]
    intro bits _
    rfl
  refine ⟨h.asked.ask, h.plain, hcount1.trans h.count1, ?_, ?_⟩
  · show (s.digest T).buff.val = _
    rw [digest_buff h.asked, hfront, hcount0, h.count1]
    rfl
  · intro bits hbits
    rw [← Option.some.inj hbits]
    exact length_encodePair _ _

-- ================================================================== a run

/-- What an event comes to: a range passed on, or a question. -/
inductive Step
  | range (u : Str)
  | ask

/-- A call comes to its ranges, `to_string` to a `digest`. -/
def Event.steps : Event → List Step
  | .update c => c.ranges.map .range
  | .digest => [.ask]
  | .toString => [.ask]

/-- One step of an object. -/
def Step.run (T : Transformers) (s : Md5) : Step → Md5
  | .range u => s.update T u
  | .ask => s.asked (s.digest T)

/-- The ranges alone. -/
def ranges (l : List Step) : List Str :=
  l.filterMap fun
    | .range u => some u
    | .ask => none

/-- One step of an object that is not asked, with a note of the bytes
that stand at the end of the buffer of one that is. -/
def noted (T : Transformers) (p : Md5 × Option Str) :
    Step → Option (Md5 × Option Str)
  | .range u => some (p.1.update T u,
      if 64 ≤ p.1.index + u.length then none else p.2)
  | .ask => some (p.1, some (encode [p.1.count0, p.1.count1]))

/-- A call that completes a block finds none of those bytes waiting, or
finds them as they would be without the questions. -/
def Harmless (p : Md5 × Option Str) : Step → Prop
  | .range u => 64 ≤ p.1.index + u.length →
      SameFront p.1.buff.val p.2 p.1.index
  | .ask => True

/-- Blocks handed over stay handed over. -/
theorem fed_isPrefix_update (s : Md5) (u : Str) :
    s.fed <+: (s.update T u).fed := by
  by_cases hle : 64 - s.index ≤ u.length
  · rw [update_fed_of_le hle]
    exact List.prefix_append ..
  · rw [update_fed_of_lt (Nat.not_le.mp hle)]

theorem fed_isPrefix_run (l : List Step) :
    ∀ s : Md5, s.fed <+: (l.foldl (Step.run T) s).fed := by
  induction l with
  | nil => exact fun s => List.prefix_rfl
  | cons e l ih =>
      intro s
      cases e with
      | range u => exact (fed_isPrefix_update s u).trans (ih (s.update T u))
      | ask => exact ih (s.asked (s.digest T))

/-- Ranges passed on are steps of a run without questions. -/
theorem foldl_map_range (us : List Str) (s : Md5) :
    (us.map Step.range).foldl (Step.run T) s = s.updates T us := by
  rw [List.foldl_map]
  rfl

theorem fed_isPrefix_updates (us : List Str) (s : Md5) :
    s.fed <+: (s.updates T us).fed := by
  rw [← foldl_map_range]
  exact fed_isPrefix_run (us.map .range) s

/-- Along a run of the one that may be asked, the same blocks are handed
over as by the one that is not exactly when every call is harmless. -/
theorem fed_run_iff {l : List Step} :
    ∀ {s t : Md5} {note : Option Str} {m : Str}, Beside T s t note m →
      ((l.foldl (Step.run T) s).fed = (t.updates T (ranges l)).fed
        ↔ s.fed = t.fed ∧ Runs.Along (noted T) Harmless (t, note) l) := by
  induction l with
  | nil =>
      intro s t note m _
      exact (and_iff_left trivial).symm
  | cons e l ih =>
      intro s t note m h
      cases e with
      | ask =>
          have hmore : Runs.Along (noted T) Harmless (t, note) (.ask :: l)
              ↔ Harmless (t, note) .ask ∧ Runs.Along (noted T) Harmless
                (t, some (encode [t.count0, t.count1])) l :=
            Runs.along_cons_iff l rfl
          have hfree : Harmless (t, note) .ask := trivial
          rw [hmore, and_iff_right hfree]
          exact ih h.ask
      | range u =>
          have hmore : Runs.Along (noted T) Harmless (t, note) (.range u :: l)
              ↔ Harmless (t, note) (.range u)
                ∧ Runs.Along (noted T) Harmless (t.update T u,
                  if 64 ≤ t.index + u.length then none else note) l :=
            Runs.along_cons_iff l rfl
          rw [hmore, ← and_assoc]
          have hfirst := h.fed_update_iff u
          constructor
          · intro heq
            -- what is the same at the end is the same after the first call
            have hs := fed_isPrefix_run (T := T) l (s.update T u)
            have ht := fed_isPrefix_updates (T := T) (ranges l) (t.update T u)
            have heq' : (l.foldl (Step.run T) (s.update T u)).fed
                = ((t.update T u).updates T (ranges l)).fed := heq
            have hlen : (s.update T u).fed.length
                = (t.update T u).fed.length := by
              rw [(h.asked.update u).fed, (h.plain.update u).fed]
            rw [heq'] at hs
            have hnow : (s.update T u).fed = (t.update T u).fed :=
              (List.prefix_of_prefix_length_le hs ht (Nat.le_of_eq hlen)
                ).eq_of_length hlen
            have hboth := hfirst.mp hnow
            exact ⟨hboth, ((ih (h.update u hboth.2)).mp heq').2⟩
          · rintro ⟨hboth, halong⟩
            exact (ih (h.update u hboth.2)).mpr ⟨hfirst.mpr hboth, halong⟩

-- ================================================================= events

/-- The calls of `update` among some events. -/
def calls (es : List Event) : List Call :=
  es.filterMap fun
    | .update c => some c
    | _ => none

theorem ranges_append (l l' : List Step) :
    ranges (l ++ l') = ranges l ++ ranges l' :=
  List.filterMap_append

theorem ranges_map_range (us : List Str) : ranges (us.map .range) = us := by
  unfold ranges
  rw [List.filterMap_map]
  exact List.filterMap_some

theorem ranges_steps (es : List Event) :
    ranges (es.flatMap Event.steps) = (calls es).flatMap Call.ranges := by
  induction es with
  | nil => rfl
  | cons e es ih =>
      rw [List.flatMap_cons, ranges_append, ih]
      cases e with
      | update c =>
          show ranges (c.ranges.map .range) ++ _ = _
          rw [ranges_map_range]
          rfl
      | digest => rfl
      | toString => rfl

/-- With enough rounds events come to their steps. -/
theorem events_eq (es : List Event) :
    ∀ s : Md5, ∃ n, ∀ k, n ≤ k → s.events T k es
      = some (.ok ((es.flatMap Event.steps).foldl (Step.run T) s)) := by
  induction es with
  | nil =>
      intro s
      exact ⟨0, fun _ _ => rfl⟩
  | cons e es ih =>
      intro s
      cases e with
      | update c =>
          obtain ⟨n, hn⟩ := call_eq (T := T) c s
          obtain ⟨m, hm⟩ := ih (s.updates T c.ranges)
          refine ⟨max n m, fun k hk => ?_⟩
          rw [List.flatMap_cons, List.foldl_append]
          have hranges : List.foldl (Step.run T) s (Event.update c).steps
              = s.updates T c.ranges := foldl_map_range c.ranges s
          unfold Md5.events
          rw [hn k (by omega), hranges]
          exact hm k (by omega)
      | digest => exact ih (s.asked (s.digest T))
      | toString => exact ih (s.asked (s.digest T))

/-- After these events on a reset object, a question gets the answer it
gets after the calls of `update` alone: over the same blocks, the same
bytes, and the same text. -/
def SameAnswer (T : Transformers) (s : Md5) (es : List Event) : Prop :=
  ∃ n, ∀ k, n ≤ k → ∃ s₁ s₂, s.reset.events T k es = some (.ok s₁)
    ∧ s.reset.calls T k (calls es) = some (.ok s₂)
    ∧ (s₁.digest T).fed = (s₂.digest T).fed
    ∧ (s₁.digest T).digestBytes = (s₂.digest T).digestBytes
    ∧ (s₁.toString T).1 = (s₂.toString T).1

/-- Every call that completes a block, the two of `final` included, is
harmless. -/
def Undisturbed (T : Transformers) (s : Md5) (es : List Event) : Prop :=
  Runs.Along (noted T) Harmless (s.reset, none)
    (es.flatMap Event.steps
      ++ (s.reset.updates T ((calls es).flatMap Call.ranges)).finalCalls.map
        .range)

/-- Asked or not, an object has counted the same bytes. -/
theorem run_counts {l : List Step} :
    ∀ {s t : Md5} {m : Str}, Tracks T s m → Tracks T t m →
      s.count1 = t.count1 →
      ∃ m', Tracks T (l.foldl (Step.run T) s) m'
        ∧ Tracks T (t.updates T (ranges l)) m'
        ∧ (l.foldl (Step.run T) s).count1 = (t.updates T (ranges l)).count1 := by
  induction l with
  | nil =>
      intro s t m hs ht hcount1
      exact ⟨m, hs, ht, hcount1⟩
  | cons e l ih =>
      intro s t m hs ht hcount1
      cases e with
      | range u =>
          exact ih (hs.update u) (ht.update u) (hs.update_count1_eq ht hcount1 u)
      | ask =>
          have hsame : (s.asked (s.digest T)).count1 = s.count1 := by
            rw [digest_of_not_finish hs.finish]
            rfl
          exact ih hs.ask ht (hsame.trans hcount1)

/-- A digest is over the blocks handed over by then and by the two calls
of `final`. -/
theorem Tracks.digest_of {s : Md5} {m : Str} (h : Tracks T s m) :
    (s.digest T).fed = (s.updates T s.finalCalls).fed
      ∧ (s.digest T).digestBytes
        = ((s.digest T).fed.foldl T .start).bytes := by
  have hmagic := h.final.magicNum
  rw [digest_of_not_finish h.finish]
  refine ⟨rfl, ?_⟩
  show (s.updates T s.finalCalls).magicNum.bytes = _
  rw [hmagic]

/-- When a question does not disturb the computation. For every object,
every calls of `update` after `reset` and every questions in between,
the next question gets the answer it would get without them, over the
same blocks, exactly when no call completes a block with bytes in front
that an earlier question has changed: that is, when from more than 56
waiting bytes a block is completed while the count a question wrote
still ends the buffer, the waiting bytes it covers are those it wrote
over. -/
theorem undisturbed_iff (T : Transformers) (s : Md5) (es : List Event) :
    SameAnswer T s es ↔ Undisturbed T s es := by
  obtain ⟨n₁, hn₁⟩ := events_eq (T := T) es s.reset
  obtain ⟨n₂, hn₂⟩ := calls_eq (T := T) (calls es) s.reset
  obtain ⟨m, hs, ht, hcount1⟩ := run_counts (T := T)
    (l := es.flatMap Event.steps) (tracks_reset s) (tracks_reset s) rfl
  rw [ranges_steps] at ht hcount1
  have hfinal : ((es.flatMap Event.steps).foldl (Step.run T) s.reset).finalCalls
      = (s.reset.updates T ((calls es).flatMap Call.ranges)).finalCalls := by
    unfold Md5.finalCalls
    rw [hs.index_eq, ht.index_eq, hs.count0, ht.count0, hcount1]
  have hboth := fed_run_iff (T := T) (l := es.flatMap Event.steps
    ++ (s.reset.updates T ((calls es).flatMap Call.ranges)).finalCalls.map
      .range) (beside_reset s)
  rw [List.foldl_append, foldl_map_range, ranges_append, ranges_map_range,
    ranges_steps] at hboth
  have hiff : (((es.flatMap Event.steps).foldl (Step.run T) s.reset).digest
        T).fed
      = ((s.reset.updates T ((calls es).flatMap Call.ranges)).digest T).fed
      ↔ Undisturbed T s es := by
    rw [hs.digest_of.1, ht.digest_of.1, hfinal]
    refine Iff.trans ?_ (hboth.trans (and_iff_right rfl))
    unfold Md5.updates
    rw [List.foldl_append]
  rw [← hiff]
  constructor
  · rintro ⟨n, hn⟩
    obtain ⟨s₁, s₂, h₁, h₂, hfed, -⟩ := hn (max n (max n₁ n₂)) (by omega)
    rw [hn₁ _ (by omega)] at h₁
    rw [hn₂ _ (by omega)] at h₂
    obtain rfl := Except.ok.inj (Option.some.inj h₁)
    obtain rfl := Except.ok.inj (Option.some.inj h₂)
    exact hfed
  · intro hfed
    have hbytes : (((es.flatMap Event.steps).foldl (Step.run T)
          s.reset).digest T).digestBytes
        = ((s.reset.updates T ((calls es).flatMap Call.ranges)).digest
            T).digestBytes := by
      rw [hs.digest_of.2, ht.digest_of.2, hfed]
    refine ⟨max n₁ n₂, fun k hk => ⟨_, _, hn₁ k (by omega), hn₂ k (by omega),
      hfed, hbytes, ?_⟩⟩
    unfold Md5.toString
    rw [hbytes]

-- ========================================================= where it fails

/-- After 57 bytes on a buffer of zeros, two questions in a row get two
answers. -/
theorem second_digest_differs :
    ∃ s₁ s₂,
      (filled 0).reset.events transformers 0
          [.update (.range (List.replicate 57 97))] = some (.ok s₁)
        ∧ (filled 0).reset.events transformers 0
          [.update (.range (List.replicate 57 97)), .digest] = some (.ok s₂)
        ∧ (s₁.digest transformers).digestBytes
          ≠ (s₂.digest transformers).digestBytes := by
  refine ⟨_, _, rfl, rfl, ?_⟩
  decide +kernel

end TrashyServer.Digest
