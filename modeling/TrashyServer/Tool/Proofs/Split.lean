/-
What `split_` takes a text apart into.

The loop cuts at the occurrences of the separator met from left to
right (`split_eq`). Nothing is lost but what stands behind the last of
them (`split_parts`): the pieces, each with the separator put back, and
that tail are the text.
-/
import TrashyServer.Tool.HttpParse

namespace TrashyServer.Tool

/-- A separator. -/
abbrev Separator : Type := { s : Str // s ≠ [] }

/-- What `split_` does, for every text, separator and vector: it ends,
leaves what is in the vector already, and appends pieces without the
separator, one for each of its occurrences from left to right. They are
the text up to a tail in which the separator does not occur. -/
theorem split_parts (result : List Str) (source : Str) (s : Separator) :
    ∃ parts tail, split_ result source s.1 = .ok (result ++ parts)
      ∧ source = parts.flatMap (· ++ s.1) ++ tail
      ∧ ¬ s.1 <:+: tail
      ∧ (∀ part ∈ parts, ¬ s.1 <:+: part)
      ∧ parts.length = Search.hits s.1 source := by
  obtain ⟨tail, htail, hfree⟩ := Search.exists_rest s.2 source
  refine ⟨Search.pieces s.1 source, tail, split_eq s.2 result source, htail,
    hfree, ?_, ?_⟩
  · exact Search.not_infix_of_mem_pieces s.2
  · exact Search.length_pieces s.2 source

/-- The separator overlaps itself: of the two blank lines in three line
ends the first one counts. -/
example : split_ [] (bytes "a\r\n\r\n\r\nb") (bytes "\r\n\r\n")
    = .ok [bytes "a"] := by
  decide +kernel

end TrashyServer.Tool
