import ResourceQuery.Proofs.Outline.Reading
import ResourceQuery.Proofs.Term.Rendering

/-!
# Reading rendered outlines

Items are rendered with commas between them, and blocks in braces. A comma or a brace ends what
stands before it, and anything may follow one, so if each leaf and each head is split into its own
tokens, then so is the whole outline.
-/

namespace ResourceQuery

set_option autoImplicit false

open Term (Spells tokenizes_mark)

variable {σ A B K α : Type} {V : Vocabulary A B K α} {render : α → String} {x : α} {xs : List α}

namespace Outline

/-- What follows an item or a head. -/
def outlineMarks : List Char := [',', '{', '}']

/-- The text of the value has the tokens of an item that means it. -/
def Renders (V : Vocabulary A B K α) (render : α → String) (x : α) : Prop :=
  ∃ item, Item.value? V item = some x ∧ Spells outlineMarks (render x) (item.tokens V)

theorem exists_outline_of_renders (hne : xs ≠ []) (hxs : ∀ x ∈ xs, Renders V render x) :
    ∃ o, values? V o = some xs ∧
      Spells outlineMarks (",".intercalate (xs.map render)) (o.tokens V) := by
  induction xs with
  | nil => exact absurd rfl hne
  | cons x xs ih =>
    obtain ⟨⟨item, hx, hspell⟩, hxs⟩ := List.forall_mem_cons.mp hxs
    cases xs with
    | nil =>
      refine ⟨.one item, values?_one_eq_some_iff.mpr ⟨x, hx, rfl⟩, ?_⟩
      rw [tokens]
      simpa using hspell
    | cons y ys =>
      obtain ⟨o, ho, hmore⟩ := ih (List.cons_ne_nil y ys) hxs
      refine ⟨.more item o, values?_more_eq_some_iff.mpr ⟨x, y :: ys, hx, ho, rfl⟩, ?_⟩
      rw [tokens, List.map_cons, List.map_cons, String.intercalate_cons_cons, ← List.map_cons]
      exact hspell.join hmore (c := ',') rfl (by decide)
        (tokenizes_mark (m := .comma) fun _ => trivial)

theorem Renders.block {b : B} {k : K} {headText : String} (hk : V.head? b = some k)
    (hhead : Spells outlineMarks headText (V.head b)) (hne : xs ≠ [])
    (hxs : ∀ x ∈ xs, Renders V render x)
    (hrender : render (V.close k xs) =
      headText ++ "\x7b" ++ ",".intercalate (xs.map render) ++ "\x7d") :
    Renders V render (V.close k xs) := by
  obtain ⟨o, ho, hinner⟩ := exists_outline_of_renders hne hxs
  refine ⟨.block b o, Item.value?_block_eq_some_iff.mpr ⟨k, xs, hk, ho, rfl⟩, ?_⟩
  have hopen : Spells outlineMarks (headText ++ "\x7b" ++ _) _ :=
    hhead.join hinner (c := '{') rfl (by decide)
      (tokenizes_mark (m := .openBrace) fun _ => trivial)
  have hclose : Spells outlineMarks _ _ :=
    hopen.close (m := .closeBrace) (c := '}') rfl (by decide) fun _ => trivial
  rw [hrender, Item.tokens]
  rwa [List.append_assoc, List.cons_append] at hclose

end Outline

/-- A list whose items can each be read from its text is read from the text of the list. -/
theorem Grammar.OutlineReader.parse_intercalate {g : Grammar σ (List α)} (R : g.OutlineReader V)
    {forget : σ → σ} (hforget : g.ForgetsPlaces forget) (hne : xs ≠ [])
    (hxs : ∀ x ∈ xs, Outline.Renders V render x) :
    g.parse (",".intercalate (xs.map render)) = .ok xs := by
  obtain ⟨o, ho, hspell⟩ := Outline.exists_outline_of_renders hne hxs
  refine (R.parse_eq_ok_iff hforget).mpr ⟨o.tokens V, ?_, o, rfl, ho⟩
  exact tokenize_eq_ok_iff.mpr hspell.tokenizes

end ResourceQuery
