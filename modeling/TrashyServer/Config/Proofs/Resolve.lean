/-
Where the configured directories lie.

Of a path only its components count (`parts`) and whether it starts at
the root. `check_dir` keeps both: the slash it drops stands before
another one, so no component is merged, lost or moved (`parts_squeeze`).
Behind a slash a path goes on (`parts_append_of_slash`), and the root
ends in one; so the root and the value are told apart again in the path
(`resolves`).
-/
import TrashyServer.Config.Proofs.Depend

namespace TrashyServer.Config

-- ============================================================== components

/-- The non-empty components of a path. -/
def parts (s : Str) : List Str := (s.splitOn slash).filter (· ≠ [])

theorem parts_append_slash (a b : Str) :
    parts (a ++ slash :: b) = parts a ++ parts b := by
  unfold parts
  rw [List.splitOn_append_cons_self, List.filter_append]

theorem parts_slash (b : Str) : parts (slash :: b) = parts b :=
  parts_append_slash [] b

/-- Behind a slash a path goes on. -/
theorem parts_append_of_slash {a : Str} (h : a.getLast? = some slash)
    (b : Str) : parts (a ++ b) = parts a ++ parts b := by
  obtain ⟨dir, rfl⟩ := List.getLast?_eq_some_iff.mp h
  have hdir : parts (dir ++ [slash]) = parts dir := by
    rw [parts_append_slash]
    exact List.append_nil _
  rw [hdir, List.append_assoc]
  exact parts_append_slash dir b

/-- A dropped slash separates nothing, whatever component stands before
the path. -/
theorem parts_append_squeeze (s : Str) :
    ∀ a : Str, parts (a ++ squeeze s) = parts (a ++ s) := by
  fun_induction squeeze s with
  | case1 =>
      intro a
      rfl
  | case2 b =>
      intro a
      rfl
  | case3 b c s hslash ih =>
      intro a
      obtain ⟨rfl, rfl⟩ := hslash
      rw [parts_append_slash, parts_append_slash, parts_slash]
      congr 1
      exact ih []
  | case4 b c s hslash ih =>
      intro a
      by_cases hb : b = slash
      · subst hb
        rw [parts_append_slash, parts_append_slash]
        congr 1
        exact ih []
      · -- the byte belongs to the component before
        have hnext := ih (a ++ [b])
        rw [List.append_assoc, List.append_assoc] at hnext
        exact hnext

theorem parts_squeeze (s : Str) : parts (squeeze s) = parts s :=
  parts_append_squeeze s []

theorem parts_closed (p : Str) : parts (closed p) = parts p := by
  unfold closed
  split
  · rfl
  · rw [show bytes "/" = [slash] from rfl, parts_append_slash]
    exact List.append_nil _

-- ==================================================================== ends

theorem head?_closed {p : Str} (h : p ≠ []) : (closed p).head? = p.head? := by
  unfold closed
  split
  · rfl
  · exact List.head?_append_of_ne_nil _ h

theorem getLast?_closed (p : Str) : (closed p).getLast? = some slash := by
  unfold closed
  split
  · next h => exact h
  · exact List.getLast?_concat ..

theorem getLast?_rootOf (value : Str) :
    (rootOf value).getLast? = some slash := by
  unfold rootOf
  split
  · rfl
  · exact getLast?_closed _

/-- The root has the components of the location, and is absolute with
it. -/
theorem parts_rootOf (value : Str) :
    parts (rootOf value) = if value = [] then [bytes "."] else parts value := by
  unfold rootOf
  split
  · decide
  · rw [parts_closed, parts_squeeze]

theorem head?_rootOf (value : Str) :
    (rootOf value).head? = some slash ↔ value.head? = some slash := by
  unfold rootOf
  split
  · next hnil =>
    rw [hnil]
    decide
  · next hne => rw [head?_closed (squeeze_ne_nil hne), head?_squeeze]

-- =============================================================== the theorem

/-- For the four settings in any order with the location before the
paths, and any values, a getter returns, after any calls, a path that
ends in a slash, whose components are those of the location and then
those of its value, and which is absolute with the location. -/
theorem resolves {slots : List Slot} (hperm : slots.Perm reference)
    (hbefore : ∀ k before after, slots = before ++ .path k :: after →
      .location ∈ before)
    (v : Values) (port : Int) (gs : List Getter) (k : PathKey) :
    ∃ p, outcome slots v port gs k = .ok p ∧ p ≠ []
      ∧ p.getLast? = some slash
      ∧ parts p = (if v.location = [] then [bytes "."] else parts v.location)
          ++ parts (v.path k)
      ∧ (p.head? = some slash ↔ v.location.head? = some slash) := by
  have hpath : ∀ k, .path k ∈ slots := by
    intro k
    apply hperm.mem_iff.mpr
    cases k <;> simp [reference]
  have hne : rootOf v.location ++ v.path k ≠ [] := by
    intro hnil
    exact rootOf_ne_nil _ (List.append_eq_nil_iff.mp hnil).1
  refine ⟨_, (settled_of_perm hperm hbefore).outcome_eq hpath v port gs k,
    closed_ne_nil _, getLast?_closed _, ?_, ?_⟩
  · rw [parts_closed, parts_squeeze,
      parts_append_of_slash (getLast?_rootOf _), parts_rootOf]
  · rw [head?_closed (squeeze_ne_nil hne), head?_squeeze,
      List.head?_append_of_ne_nil _ (rootOf_ne_nil _), head?_rootOf]

/-- An absolute location with a doubled slash, and the slash of the value
at the join. -/
theorem resolves_site :
    ∃ p, outcome [.location, .path .staticPath, .listenPort, .path .htmlPages]
        ⟨bytes "80", bytes "/srv//site", fun _ => bytes "/pages"⟩ 0
        [.getListenPort, .getPagesPath] .htmlPages = .ok p ∧ p ≠ []
      ∧ p.getLast? = some slash
      ∧ parts p = [bytes "srv", bytes "site", bytes "pages"]
      ∧ (p.head? = some slash ↔ (bytes "/srv//site").head? = some slash) := by
  refine resolves ?_ ?_
    ⟨bytes "80", bytes "/srv//site", fun _ => bytes "/pages"⟩ 0
    [.getListenPort, .getPagesPath] .htmlPages
  · decide
  · intro k before after heq
    rcases before with - | ⟨s, before⟩
    · cases heq
    · obtain ⟨rfl, -⟩ := List.cons.inj heq
      simp

end TrashyServer.Config
