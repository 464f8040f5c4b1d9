import ResourceQuery.Proofs.Outline.Rendering
import ResourceQuery.Proofs.SortKey.Writable

/-!
# Reading rendered order clauses

A key is rendered with its sign, also if it is a group that was written without one. Each key that
can be written is split into the tokens of an item that means it, so an order clause that can be
written is read back from its text as it was.
-/

namespace ResourceQuery.SortKey

set_option autoImplicit false

open Outline
open Term (Spells exists_written spells_name)

variable {names : PrefixMap}

theorem text_mark_eq_sign (direction : Direction) : direction.mark.text = direction.sign := by
  cases direction <;> rfl

theorem exists_signed (direction : Direction) {property : QualifiedName}
    (hproperty : property.Writable names) :
    ∃ s : SignedName, s.direction = direction ∧ s.name.name? names = some property ∧
      Spells outlineMarks (direction.sign ++ property.text) s.tokens := by
  obtain ⟨n, hn, hwell, htext⟩ := exists_written hproperty
  refine ⟨⟨direction, n⟩, rfl, hn, ?_⟩
  have hname : Spells outlineMarks n.token.text [n.token] := spells_name hwell (by decide)
  have hends : ∀ rest, Reading.EndsBefore (.mark direction.mark) rest := by
    cases direction <;> exact fun _ => trivial
  rw [← htext, ← text_mark_eq_sign]
  exact hname.cons (t := .mark direction.mark) trivial hends

theorem renders {k : SortKey} (hk : k.Writable names) : Renders (vocabulary names) text k := by
  induction hk with
  | @key direction property hproperty =>
    obtain ⟨s, rfl, hs, hspell⟩ := exists_signed direction hproperty
    refine ⟨.leaf s, ?_, ?_⟩
    · simp only [Item.value?, vocabulary, hs, Option.map_some]
    · rwa [Item.tokens, SortKey.text]
  | @group direction property keys hproperty hne _ ih =>
    obtain ⟨s, rfl, hs, hspell⟩ := exists_signed direction hproperty
    have hhead : (vocabulary names).head? (.signed s) = some (s.direction, property) := by
      simp only [vocabulary, GroupHead.name, GroupHead.direction, hs, Option.map_some]
    refine Renders.block (V := vocabulary names) hhead hspell hne ih ?_
    rw [← texts_eq_map]
    rfl

theorem parse_clauseText_of_writable {keys : List SortKey} (h : WritableClause names keys) :
    parse names (clauseText keys) = .ok keys := by
  rw [clauseText, texts_eq_map]
  exact (reader names).parse_intercalate (forgetsPlaces names) h.nonempty
    fun k hk => renders (h.keys k hk)

end ResourceQuery.SortKey
