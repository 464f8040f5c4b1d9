import ResourceQuery.Proofs.Property.Writable
import ResourceQuery.Proofs.SortKey.Writable
import ResourceQuery.Proofs.Term.Demands
import ResourceQuery.Request

/-!
# Reading requests

A request is read if its prefixes are, and under them each of its other clauses. So what has been
read of a request can be written.
-/

namespace ResourceQuery

set_option autoImplicit false

variable {α : Type} {r : Request} {q : Query}

namespace Request

/-- What is read of a clause that is given is what its reader reads. -/
theorem exists_parse_of_readIfGiven {parse : String → Except ParseError α} {given : Option String}
    {o : Option α} (h : readIfGiven parse given = .ok o) {a : α} (ha : a ∈ o) :
    ∃ text ∈ given, parse text = .ok a := by
  cases given with
  | none =>
    cases h
    cases ha
  | some text =>
    obtain ⟨b, hb, rfl⟩ := map_eq_ok_iff.mp h
    cases ha
    exact ⟨text, rfl, hb⟩

theorem parse_eq_ok_iff : r.parse = .ok q ↔
    (∃ prefixes, readIfGiven PrefixMap.parse r.prefixes = .ok prefixes ∧
      q.prefixes = prefixes.getD .empty) ∧
    readIfGiven (Term.parse q.prefixes) r.condition = .ok q.condition ∧
    readIfGiven (Property.parse q.prefixes) r.select = .ok q.select ∧
    readIfGiven (Property.parse q.prefixes) r.properties = .ok q.properties ∧
    readIfGiven (SortKey.parse q.prefixes) r.orderBy = .ok q.orderBy ∧
    readIfGiven SearchTerms.parse r.searchTerms = .ok q.searchTerms := by
  simp only [parse, bind_eq_ok_iff]
  constructor
  · rintro ⟨prefixes, hprefixes, condition, hcondition, select, hselect, properties, hproperties,
      orderBy, horderBy, searchTerms, hsearchTerms, ⟨⟩⟩
    exact ⟨⟨prefixes, hprefixes, rfl⟩, hcondition, hselect, hproperties, horderBy, hsearchTerms⟩
  · rintro ⟨⟨prefixes, hprefixes, heq⟩, hcondition, hselect, hproperties, horderBy, hsearchTerms⟩
    obtain ⟨_, condition, select, properties, orderBy, searchTerms⟩ := q
    subst heq
    exact ⟨prefixes, hprefixes, condition, hcondition, select, hselect, properties, hproperties,
      orderBy, horderBy, searchTerms, hsearchTerms, rfl⟩

end Request

/-- The clauses of the query can be written with its prefixes. -/
structure Query.Writable (q : Query) : Prop where
  condition : ∀ ts ∈ q.condition, Term.WritableClause q.prefixes ts
  select : ∀ ps ∈ q.select, Property.WritableClause q.prefixes ps
  properties : ∀ ps ∈ q.properties, Property.WritableClause q.prefixes ps
  orderBy : ∀ ks ∈ q.orderBy, SortKey.WritableClause q.prefixes ks

theorem Query.writable_of_parse (h : r.parse = .ok q) : q.Writable := by
  obtain ⟨_, hcondition, hselect, hproperties, horderBy, _⟩ := Request.parse_eq_ok_iff.mp h
  constructor
  · intro ts hts
    obtain ⟨text, _, htext⟩ := Request.exists_parse_of_readIfGiven hcondition hts
    exact Term.writableClause_of_parse htext
  · intro ps hps
    obtain ⟨text, _, htext⟩ := Request.exists_parse_of_readIfGiven hselect hps
    exact Property.writableClause_of_parse htext
  · intro ps hps
    obtain ⟨text, _, htext⟩ := Request.exists_parse_of_readIfGiven hproperties hps
    exact Property.writableClause_of_parse htext
  · intro ks hks
    obtain ⟨text, _, htext⟩ := Request.exists_parse_of_readIfGiven horderBy hks
    exact SortKey.writableClause_of_parse htext

end ResourceQuery
