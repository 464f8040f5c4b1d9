import ResourceQuery.Proofs.Clause.Completion
import ResourceQuery.Proofs.Property.Acceptance
import ResourceQuery.Proofs.Term.Writable

/-!
# Property lists that can be written

A property can be written if its names can be written with their own prefixes and no list of
properties in it is empty, at any depth. These are the properties that outlines with well-formed
tokens mean, so all that the parser returns.
-/

namespace ResourceQuery

set_option autoImplicit false

namespace Property

variable {names : PrefixMap} {result : List Property}

inductive Writable (names : PrefixMap) : Property → Prop where
  | named {name : QualifiedName} (hname : name.Writable names) : Writable names (.named name)
  | wildcard : Writable names .wildcard
  | nested {name : QualifiedName} {children : List Property} (hname : name.Writable names)
    (hne : children ≠ []) (hchildren : ∀ p ∈ children, Writable names p) :
    Writable names (.nested name children)
  | nestedWildcard {children : List Property} (hne : children ≠ [])
    (hchildren : ∀ p ∈ children, Writable names p) : Writable names (.nestedWildcard children)

structure WritableClause (names : PrefixMap) (properties : List Property) : Prop where
  nonempty : properties ≠ []
  properties : ∀ p ∈ properties, p.Writable names

/-- No list of properties in the property is empty. -/
inductive Filled : Property → Prop where
  | named {name : QualifiedName} : Filled (.named name)
  | wildcard : Filled .wildcard
  | nested {name : QualifiedName} {children : List Property} (hne : children ≠ [])
    (hchildren : ∀ p ∈ children, Filled p) : Filled (.nested name children)
  | nestedWildcard {children : List Property} (hne : children ≠ [])
    (hchildren : ∀ p ∈ children, Filled p) : Filled (.nestedWildcard children)

theorem Writable.filled {p : Property} (h : p.Writable names) : p.Filled := by
  induction h with
  | named => exact .named
  | wildcard => exact .wildcard
  | nested _ hne _ ih => exact .nested hne ih
  | nestedWildcard hne _ ih => exact .nestedWildcard hne ih

theorem ensures_writable (names : PrefixMap) : (vocabulary names).Ensures (Writable names) where
  leaf := by
    intro w p hw hp
    have htoken := hw w.token (List.mem_singleton_self _)
    obtain ⟨head, hhead, rfl⟩ := Option.map_eq_some_iff.mp hp
    cases w with
    | name n =>
      obtain ⟨q, hq, rfl⟩ := Option.map_eq_some_iff.mp hhead
      exact .named (n.writable htoken hq)
    | wildcard =>
      cases hhead
      exact .wildcard
  block := by
    intro w head children hw hhead hne hchildren
    have htoken := hw w.token (List.mem_singleton_self _)
    cases w with
    | name n =>
      obtain ⟨q, hq, rfl⟩ := Option.map_eq_some_iff.mp hhead
      exact .nested (n.writable htoken hq) hne hchildren
    | wildcard =>
      cases hhead
      exact .nestedWildcard hne hchildren

theorem writableClause_of_parse {text : String} (h : parse names text = .ok result) :
    WritableClause names result := by
  obtain ⟨hne, hall⟩ := (reader names).of_parse (forgetsPlaces names) (ensures_writable names) h
  exact ⟨hne, hall⟩

end Property

/-- A property list is accepted if its tokens are those of an outline that means it, and none of
its lists is empty. Under both parameters it is read in the same way. -/
theorem Clause.parse_eq_properties_iff_derives (names : PrefixMap) (text : String)
    (list : List Property) :
    (Clause.select.parse names text = .ok (.properties list) ↔
      ∃ ts, tokenize text = .ok ts ∧ Property.Derives names ts list) ∧
    Clause.properties.parse names text = Clause.select.parse names text ∧
    (Clause.select.parse names text = .ok (.properties list) →
      list ≠ [] ∧ ∀ p ∈ list, p.Filled) := by
  have hselect : Clause.select.parse names text = .ok (.properties list) ↔
      Property.parse names text = .ok list := by
    rw [Clause.parse, map_eq_ok_iff]
    constructor
    · rintro ⟨_, h, ⟨⟩⟩
      exact h
    · intro h
      exact ⟨list, h, rfl⟩
  refine ⟨hselect.trans Property.parse_eq_ok_iff, rfl, ?_⟩
  intro h
  have hwritable := Property.writableClause_of_parse (hselect.mp h)
  exact ⟨hwritable.nonempty, fun p hp => (hwritable.properties p hp).filled⟩

end ResourceQuery
