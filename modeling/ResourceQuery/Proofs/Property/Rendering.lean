import ResourceQuery.Proofs.Outline.Rendering
import ResourceQuery.Proofs.Property.Writable

/-!
# Reading rendered property lists

Each property that can be written is split into the tokens of an item that means it, so a property
list that can be written is read back from its text as it was.
-/

namespace ResourceQuery.Property

set_option autoImplicit false

open Outline
open Term (Spells exists_written spells_name)

variable {names : PrefixMap}

/-- What stands before a block or alone, with its text. -/
theorem exists_writtenHead {name : QualifiedName} (hname : name.Writable names) :
    ∃ w : WrittenHead, w.head? names = some (some name) ∧
      Spells outlineMarks name.text [w.token] := by
  obtain ⟨n, hn, hwell, htext⟩ := exists_written hname
  refine ⟨.name n, ?_, ?_⟩
  · rw [WrittenHead.head?, hn, Option.map_some]
  · rw [← htext]
    exact spells_name hwell (by decide)

theorem spells_star : Spells outlineMarks "*" [WrittenHead.wildcard.token] :=
  fun _ _ _ hts => Term.tokenizes_mark (m := .star) (fun _ => trivial) hts

theorem renders {p : Property} (hp : p.Writable names) : Renders (vocabulary names) text p := by
  induction hp with
  | @named name hname =>
    obtain ⟨w, hw, hspell⟩ := exists_writtenHead hname
    refine ⟨.leaf w, ?_, ?_⟩
    · simp only [Item.value?, vocabulary, hw, Option.map_some]
      rfl
    · rwa [Item.tokens, Property.text]
  | wildcard =>
    refine ⟨.leaf .wildcard, rfl, ?_⟩
    rw [Item.tokens, Property.text]
    exact spells_star
  | @nested name children hname hne _ ih =>
    obtain ⟨w, hw, hspell⟩ := exists_writtenHead hname
    refine Renders.block (V := vocabulary names) (k := some name) hw hspell hne ih ?_
    rw [← texts_eq_map]
    rfl
  | @nestedWildcard children hne _ ih =>
    refine Renders.block (V := vocabulary names) (b := .wildcard) (k := none) rfl spells_star hne
      ih ?_
    rw [← texts_eq_map]
    rfl

theorem parse_clauseText_of_writable {properties : List Property}
    (h : WritableClause names properties) :
    parse names (clauseText properties) = .ok properties := by
  rw [clauseText, texts_eq_map]
  exact (reader names).parse_intercalate (forgetsPlaces names) h.nonempty
    fun p hp => renders (h.properties p hp)

end ResourceQuery.Property
