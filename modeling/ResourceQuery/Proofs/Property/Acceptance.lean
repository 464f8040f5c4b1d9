import ResourceQuery.Proofs.Clause.Grammars
import ResourceQuery.Proofs.Outline.Reading
import ResourceQuery.Proofs.Term.Acceptance

/-!
# Property lists that are accepted

A property list is an outline: what stands alone and what opens a block is a name or the wildcard.
The parser accepts exactly the token lists that such outlines have, and returns their properties as
they stand, under each of the two parameters that carry a property list.
-/

namespace ResourceQuery.Property

set_option autoImplicit false

open Term (WrittenName)
open Grammar

variable {names : PrefixMap} {enclosing : List (Head × List Property)}
  {properties result : List Property} {head : Head} {d : Draft} {t : Token} {ts : List Token}

/-- What a property is written with before its braces. -/
inductive WrittenHead where
  | name (name : WrittenName)
  | wildcard

namespace WrittenHead

def token : WrittenHead → Token
  | name n => n.token
  | wildcard => .mark .star

def head? (names : PrefixMap) : WrittenHead → Option Head
  | name n => (n.name? names).map some
  | wildcard => some none

end WrittenHead

/-- The grammar of property lists,

    clause   ::= property (',' property)*
    property ::= ('*' | name) ('{' clause '}')?

as that of outlines. -/
def vocabulary (names : PrefixMap) : Vocabulary WrittenHead WrittenHead Head Property where
  leaf w := [w.token]
  head w := [w.token]
  leaf? w := (w.head? names).map Head.alone
  head? := WrittenHead.head? names
  close head children := head.withBlock children

theorem step_property_eq_ok_iff :
    (grammar names).stepToken ⟨enclosing, properties, .property⟩ t = .ok d ↔
      ∃ w head, t = WrittenHead.token w ∧ w.head? names = some head ∧
        d = ⟨enclosing, properties, .block head⟩ := by
  constructor
  · intro h
    simp only [stepToken, grammar, Draft.step] at h
    split at h
    · cases h
      exact ⟨.wildcard, none, rfl, rfl, rfl⟩
    · split at h
      · rename_i q hq
        cases h
        obtain ⟨n, rfl, hn⟩ := Term.qualify_eq_ok_iff.mp hq
        refine ⟨.name n, some q, rfl, ?_, rfl⟩
        simp only [WrittenHead.head?, hn, Option.map_some]
      · cases h
  · rintro ⟨w, head, rfl, hw, rfl⟩
    cases w with
    | name n =>
      obtain ⟨q, hn, rfl⟩ := Option.map_eq_some_iff.mp hw
      have hq : names.qualify .property (.prefixed n.pfx n.localName) = .ok q :=
        Term.qualify_eq_ok_iff.mpr ⟨n, rfl, hn⟩
      simp only [WrittenHead.token, WrittenName.token, stepToken, grammar, Draft.step, hq]
    | wildcard =>
      cases hw
      rfl

theorem afterProperty_eq_ok_iff {expects : Expects} :
    Draft.afterProperty ⟨enclosing, properties, expects⟩ t = .ok d ↔
      (t = .mark .comma ∧ d = ⟨enclosing, properties, .property⟩) ∨
      ∃ head earlier outer, enclosing = (head, earlier) :: outer ∧ t = .mark .closeBrace ∧
        d = ⟨outer, head.withBlock properties.reverse :: earlier, .separator⟩ := by
  constructor
  · intro h
    unfold Draft.afterProperty at h
    split at h
    · cases h
      exact Or.inl ⟨rfl, rfl⟩
    · rename_i head earlier outer henclosing
      cases h
      exact Or.inr ⟨head, earlier, outer, henclosing, rfl, rfl⟩
    · cases h
    · cases h
  · rintro (⟨rfl, rfl⟩ | ⟨head, earlier, outer, rfl, rfl, rfl⟩)
    · rfl
    · rfl

theorem finishProperty_eq_ok_iff {expects : Expects} :
    Draft.finishProperty ⟨enclosing, properties, expects⟩ = .ok result ↔
      enclosing = [] ∧ result = properties.reverse := by
  cases enclosing with
  | nil =>
    constructor
    · rintro ⟨⟩
      exact ⟨rfl, rfl⟩
    · rintro ⟨_, rfl⟩
      rfl
  | cons block outer =>
    constructor
    · intro h
      cases h
    · rintro ⟨h, _⟩
      cases h

def states (names : PrefixMap) : (grammar names).OutlineStates fun head children =>
    Head.withBlock children head where
  ready outer properties := ⟨outer, properties, .property⟩
  after outer properties := ⟨outer, properties, .separator⟩
  start := rfl
  step_after_iff := afterProperty_eq_ok_iff
  finish_after_iff := finishProperty_eq_ok_iff

/-- A property has no braces, unless a brace comes next. -/
theorem accepts?_block_iff :
    (grammar names).accepts? ⟨enclosing, properties, .block head⟩ ts = some result ↔
      (grammar names).accepts? ⟨enclosing, head.alone :: properties, .separator⟩ ts = some result ∨
      ∃ rest, ts = .mark .openBrace :: rest ∧
        (grammar names).accepts? ⟨(head, properties) :: enclosing, [], .property⟩ rest =
          some result := by
  have hother : ∀ t, t ≠ .mark .openBrace →
      (grammar names).stepToken ⟨enclosing, properties, .block head⟩ t =
        (grammar names).stepToken ⟨enclosing, head.alone :: properties, .separator⟩ t := by
    intro t ht
    simp only [stepToken, grammar, Draft.step]
    rfl
  exact (states names).accepts?_of_opens rfl hother rfl

/-- What a name or a wildcard goes on to be. -/
theorem accepts?_written (w : WrittenHead) (hw : w.head? names = some head)
    (h : (grammar names).accepts? ⟨enclosing, properties, .block head⟩ ts = some result) :
    (grammar names).accepts? ⟨enclosing, properties, .property⟩ (w.token :: ts) = some result :=
  accepts?_cons_eq_some_iff.mpr ⟨_, step_property_eq_ok_iff.mpr ⟨w, head, rfl, hw, rfl⟩, h⟩

def reader (names : PrefixMap) : (grammar names).OutlineReader (vocabulary names) where
  toOutlineStates := states names
  ready_iff := by
    intro outer xs ts result
    constructor
    · intro h
      obtain ⟨t, rest, d, rfl, hstep, h⟩ := (accepts?_iff_of_finish_error rfl).mp h
      obtain ⟨w, head, rfl, hw, rfl⟩ := step_property_eq_ok_iff.mp hstep
      rcases accepts?_block_iff.mp h with halone | ⟨rest, rfl, hblock⟩
      · refine Or.inl ⟨w, head.alone, rest, rfl, ?_, halone⟩
        simp only [vocabulary, hw, Option.map_some]
      · exact Or.inr ⟨w, head, rest, rfl, hw, hblock⟩
    · rintro (⟨w, x, rest, rfl, hx, h⟩ | ⟨w, head, rest, rfl, hw, h⟩)
      · obtain ⟨head, hw, rfl⟩ := Option.map_eq_some_iff.mp hx
        exact accepts?_written w hw (accepts?_block_iff.mpr (Or.inl h))
      · exact accepts?_written w hw (accepts?_block_iff.mpr (Or.inr ⟨rest, rfl, h⟩))

/-- The tokens are those of an outline that means the properties. -/
def Derives (names : PrefixMap) (ts : List Token) (properties : List Property) : Prop :=
  ∃ o, Outline.tokens (vocabulary names) o = ts ∧ o.values? (vocabulary names) = some properties

theorem parse_eq_ok_iff {text : String} :
    parse names text = .ok result ↔ ∃ ts, tokenize text = .ok ts ∧ Derives names ts result :=
  (reader names).parse_eq_ok_iff (forgetsPlaces names)

end ResourceQuery.Property
