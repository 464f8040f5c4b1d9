import ResourceQuery.Proofs.Parser.Stream
import ResourceQuery.Term.Grammar

/-!
# The operands of a where clause in their order

The operands of a clause are listed as they are written, from left to right. A draft has the
operands that have been taken so far, in open blocks and in an open list too. A token takes none of
them away and puts none before them, so the operands of a draft come first in the clause that it
ends as.
-/

namespace ResourceQuery.Term

set_option autoImplicit false

variable {names : PrefixMap} {d d' : Draft} {t : Token} {result : List Term}
  {enclosing outer : List (QualifiedName × List Term)} {terms earlier : List Term}
  {property : QualifiedName} {values : List Value} {slot : Slot} {v : Value}

mutual

def operands : Term → List Value
  | comparison _ _ operand => [operand]
  | membership _ operands => operands
  | nested _ terms => operandsOf terms

def operandsOf : List Term → List Value
  | [] => []
  | t :: ts => t.operands ++ operandsOf ts

end

theorem operandsOf_eq_flatMap (ts : List Term) : operandsOf ts = ts.flatMap operands := by
  induction ts with
  | nil => rfl
  | cons t ts ih => rw [operandsOf, ih, List.flatMap_cons]

def Slot.operands : Slot → List Value
  | comparison _ _ => []
  | membership _ earlier => earlier.reverse

/-- The operands before the place that has been reached that are in no term yet. -/
def Expects.operands : Expects → List Value
  | operand slot | magnitude slot _ | qualifier slot _ | datatype slot _ => slot.operands
  | separator _ operands => operands.reverse
  | term | operator _ | list _ | conjunction => []

/-- The operands of the terms before the place that has been reached. -/
def written : List (QualifiedName × List Term) → List Term → List Value
  | [], terms => operandsOf terms.reverse
  | (_, earlier) :: outer, terms => written outer earlier ++ operandsOf terms.reverse

theorem written_cons (t : Term) :
    written enclosing (t :: terms) = written enclosing terms ++ t.operands := by
  cases enclosing <;> simp [written, operandsOf_eq_flatMap]

theorem written_open : written ((property, terms) :: enclosing) [] = written enclosing terms :=
  List.append_nil _

theorem written_close :
    written outer (.nested property terms.reverse :: earlier) =
      written ((property, earlier) :: outer) terms := written_cons _

def Draft.operands (d : Draft) : List Value := written d.enclosing d.terms ++ d.expects.operands

namespace Draft

theorem operands_place (hexpects : d.expects.operands = slot.operands) :
    (d.place v slot).operands = d.operands ++ [v] := by
  have hd : d.operands = written d.enclosing d.terms ++ slot.operands := by
    rw [operands, hexpects]
  rw [hd]
  cases slot with
  | comparison property relation =>
    simp only [place, operands, Expects.operands, Slot.operands, written_cons, Term.operands,
      List.append_nil]
  | membership property earlier =>
    simp only [place, operands, Expects.operands, Slot.operands, List.reverse_cons,
      List.append_assoc]

theorem prefix_place (hexpects : d.expects.operands = slot.operands) :
    d.operands <+: (d.place v slot).operands := by
  rw [operands_place hexpects]
  exact List.prefix_append _ _

theorem operands_of_afterOperand (hexpects : d.expects = .separator property values)
    (h : d.afterOperand property values t = .ok d') : d'.operands = d.operands := by
  obtain ⟨enclosing, terms, expects⟩ := d
  cases hexpects
  unfold afterOperand at h
  split at h <;> cases h
  · rfl
  · simp only [operands, written_cons, Term.operands, Expects.operands, List.append_nil]

theorem operands_of_afterTerm (hexpects : d.expects.operands = []) (h : d.afterTerm t = .ok d') :
    d'.operands = d.operands := by
  obtain ⟨enclosing, terms, expects⟩ := d
  unfold afterTerm at h
  split at h
  · cases h
    rw [operands, operands, hexpects]
    rfl
  · rename_i property earlier outer henclosing
    cases h
    cases henclosing
    rw [operands, operands, hexpects, written_close]
    rfl
  · cases h
  · cases h

theorem operands_of_afterPlace (h : (d.place v slot).afterPlace t = .ok d') :
    d'.operands = (d.place v slot).operands := by
  cases slot with
  | comparison property relation => exact operands_of_afterTerm rfl h
  | membership property earlier => exact operands_of_afterOperand rfl h

theorem prefix_of_placeNumber {negative : Bool} {digits : String}
    (hexpects : d.expects.operands = slot.operands)
    (h : d.placeNumber slot negative digits = .ok d') : d.operands <+: d'.operands := by
  unfold placeNumber at h
  split at h <;> cases h
  exact prefix_place hexpects

theorem prefix_of_beginOperand (hexpects : d.expects = .operand slot)
    (h : d.beginOperand slot t = .ok d') : d.operands <+: d'.operands := by
  obtain ⟨enclosing, terms, expects⟩ := d
  cases hexpects
  unfold beginOperand at h
  split at h
  · cases h
    exact prefix_place rfl
  · cases h
    exact prefix_place rfl
  · cases h
    exact List.prefix_refl _
  · cases h
    exact List.prefix_refl _
  · exact prefix_of_placeNumber rfl h
  · cases h
    exact List.prefix_refl _
  · cases h
  · split at h <;> cases h
  · cases h

/-- A token keeps the operands that have been taken. -/
theorem prefix_of_step (h : d.step names t = .ok d') : d.operands <+: d'.operands := by
  obtain ⟨enclosing, terms, expects⟩ := d
  cases expects with
  | term =>
    simp only [step] at h
    split at h <;> cases h
    exact List.prefix_refl _
  | operator property =>
    simp only [step] at h
    split at h <;> cases h
    · exact List.prefix_refl _
    · exact List.prefix_refl _
    · rw [operands, operands, written_open]
      exact List.prefix_refl _
  | list property =>
    simp only [step] at h
    split at h <;> cases h
    exact List.prefix_refl _
  | operand slot => exact prefix_of_beginOperand rfl h
  | magnitude slot negative =>
    simp only [step] at h
    split at h
    · exact prefix_of_placeNumber rfl h
    · cases h
  | qualifier slot body =>
    simp only [step] at h
    split at h
    · cases h
      exact List.prefix_refl _
    · cases h
      exact prefix_place rfl
    · rw [operands_of_afterPlace h]
      exact prefix_place rfl
  | datatype slot body =>
    simp only [step] at h
    split at h <;> cases h
    exact prefix_place rfl
  | separator property values =>
    have hsame := operands_of_afterOperand rfl h
    exact hsame ▸ List.prefix_refl _
  | conjunction =>
    have hsame := operands_of_afterTerm rfl h
    exact hsame ▸ List.prefix_refl _

theorem operands_of_finishPlaced (hexpects : d.expects = .conjunction)
    (h : d.finishPlaced = .ok result) : operandsOf result = d.operands := by
  obtain ⟨enclosing, terms, expects⟩ := d
  cases hexpects
  cases enclosing with
  | nil =>
    cases h
    exact (List.append_nil _).symm
  | cons block outer => cases h

theorem prefix_of_finish (h : d.finish = .ok result) : d.operands <+: operandsOf result := by
  obtain ⟨enclosing, terms, expects⟩ := d
  cases expects with
  | term | operator _ | list _ | operand _ | magnitude _ _ | datatype _ _ | separator _ _ => cases h
  | qualifier slot body =>
    cases slot with
    | membership property earlier => cases h
    | comparison property relation =>
      rw [operands_of_finishPlaced rfl h]
      exact prefix_place rfl
  | conjunction =>
    have hsame := operands_of_finishPlaced rfl h
    exact hsame ▸ List.prefix_refl _

end Draft

/-- The operands that have been taken at some place come first in the clause. -/
theorem prefix_of_run {text : List Char} {ending : Except LexError Lexer} {spans : List Span}
    (h : (grammar names).run text ending d spans = .ok result) :
    d.operands <+: operandsOf result := by
  induction spans generalizing d with
  | nil =>
    unfold Grammar.run at h
    split at h
    · cases h
    · cases hfinish : (grammar names).finish d with
      | error problem =>
        rw [hfinish] at h
        cases h
      | ok terms =>
        rw [hfinish] at h
        cases h
        exact Draft.prefix_of_finish hfinish
  | cons span spans ih =>
    unfold Grammar.run at h
    split at h
    · cases h
    · rename_i d₁ hstep
      exact (Draft.prefix_of_step hstep).trans (ih h)

end ResourceQuery.Term
