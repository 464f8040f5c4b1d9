import ResourceQuery.Proofs.Term.Derivation
import ResourceQuery.Proofs.Token.WellFormed

/-!
# Terms that can be written

A term can be written if its names can be written with their own prefixes, its operands are made
of what tokens are made of, and no list in it is empty, at any depth. These are the terms that
derivations with well-formed leaves mean.
-/

namespace ResourceQuery

set_option autoImplicit false

variable {names : PrefixMap}

/-- The name has a prefix, which is bound to its namespace, and the two parts make a token. -/
def QualifiedName.Writable (names : PrefixMap) (n : QualifiedName) : Prop :=
  ∃ pfx, n.pfx = some pfx ∧ names.resolve pfx = some n.space ∧
    (Token.prefixed pfx n.localName).WellFormed

def Value.Writable (names : PrefixMap) : Value → Prop
  | uri reference => Token.IsReference reference.toList
  | boolean _ | decimal _ => True
  | string body => Token.IsBody body.toList
  | typed body datatype => Token.IsBody body.toList ∧ datatype.Writable names
  | tagged body language => Token.IsBody body.toList ∧ Token.IsTag language.toList

namespace Term

inductive Writable (names : PrefixMap) : Term → Prop where
  | comparison {property : QualifiedName} {relation : Comparison} {operand : Value}
    (hproperty : property.Writable names) (hoperand : operand.Writable names) :
    Writable names (.comparison property relation operand)
  | membership {property : QualifiedName} {operands : List Value}
    (hproperty : property.Writable names) (hne : operands ≠ [])
    (hoperands : ∀ v ∈ operands, v.Writable names) : Writable names (.membership property operands)
  | nested {property : QualifiedName} {terms : List Term} (hproperty : property.Writable names)
    (hne : terms ≠ []) (hterms : ∀ t ∈ terms, Writable names t) :
    Writable names (.nested property terms)

structure WritableClause (names : PrefixMap) (ts : List Term) : Prop where
  nonempty : ts ≠ []
  terms : ∀ t ∈ ts, t.Writable names

/-- No list in the term is empty. -/
inductive Filled : Term → Prop where
  | comparison {property : QualifiedName} {relation : Comparison} {operand : Value} :
    Filled (.comparison property relation operand)
  | membership {property : QualifiedName} {operands : List Value} (hne : operands ≠ []) :
    Filled (.membership property operands)
  | nested {property : QualifiedName} {terms : List Term} (hne : terms ≠ [])
    (hterms : ∀ t ∈ terms, Filled t) : Filled (.nested property terms)

theorem Writable.filled {t : Term} (h : t.Writable names) : t.Filled := by
  induction h with
  | comparison => exact .comparison
  | membership _ hne _ => exact .membership hne
  | nested _ hne _ ih => exact .nested hne ih

theorem WrittenName.writable {n : WrittenName} {q : QualifiedName} (hn : n.token.WellFormed)
    (hq : n.name? names = some q) : q.Writable names := by
  obtain ⟨space, hspace, rfl⟩ := Option.map_eq_some_iff.mp hq
  exact ⟨n.pfx, rfl, hspace, hn⟩

theorem writable_of_decimal? {negative : Bool} {digits : String} {v : Value}
    (hv : decimal? negative digits = some v) : v.Writable names := by
  obtain ⟨d, _, rfl⟩ := Option.map_eq_some_iff.mp hv
  trivial

theorem Literal.writable {l : Literal} {v : Value} (hl : ∀ t ∈ l.tokens, t.WellFormed)
    (hv : l.value? names = some v) : v.Writable names := by
  cases l with
  | uri _ | boolean _ | string _ =>
    cases hv
    exact hl _ List.mem_cons_self
  | number _ | signed _ _ => exact writable_of_decimal? hv
  | typed body datatype =>
    obtain ⟨q, hq, rfl⟩ := Option.map_eq_some_iff.mp hv
    simp only [tokens, List.forall_mem_cons] at hl
    exact ⟨hl.1, datatype.writable hl.2.2.1 hq⟩
  | tagged body tag =>
    cases hv
    simp only [tokens, List.forall_mem_cons] at hl
    exact ⟨hl.1, hl.2.1⟩

theorem Literal.writable_later {ls : List Literal} {vs : List Value}
    (hls : ∀ t ∈ Literal.later ls, t.WellFormed) (hvs : ls.mapM (value? names) = some vs) :
    ∀ v ∈ vs, v.Writable names := by
  induction ls generalizing vs with
  | nil =>
    rw [List.mapM_nil] at hvs
    cases hvs
    nofun
  | cons l ls ih =>
    obtain ⟨v, vs', hv, hvs', rfl⟩ := mapM_cons_eq_some_iff.mp hvs
    simp only [later, List.flatMap_cons, List.cons_append, List.forall_mem_cons,
      List.forall_mem_append] at hls
    exact List.forall_mem_cons.mpr ⟨l.writable hls.2.1 hv, ih hls.2.2 hvs'⟩

mutual

theorem Phrase.writable : (p : Phrase) → ∀ {t}, (∀ x ∈ p.tokens, x.WellFormed) →
    p.term? names = some t → t.Writable names
  | .mk name condition, t, hp, ht => by
    obtain ⟨property, hproperty, ht⟩ := Phrase.term?_eq_some_iff.mp ht
    simp only [Phrase.tokens, List.forall_mem_cons] at hp
    exact condition.writable hp.2 (name.writable hp.1 hproperty) ht

theorem Condition.writable : (c : Condition) → ∀ {property t}, (∀ x ∈ c.tokens, x.WellFormed) →
    property.Writable names → c.term? names property = some t → t.Writable names
  | .comparison relation operand, property, t, hc, hproperty, ht => by
    obtain ⟨v, hv, rfl⟩ := Condition.term?_comparison_eq_some_iff.mp ht
    simp only [Condition.tokens, List.forall_mem_cons] at hc
    exact .comparison hproperty (operand.writable hc.2 hv)
  | .membership first rest, property, t, hc, hproperty, ht => by
    obtain ⟨v, vs, hv, hvs, rfl⟩ := Condition.term?_membership_eq_some_iff.mp ht
    simp only [Condition.tokens, List.forall_mem_cons, List.forall_mem_append] at hc
    refine .membership hproperty (List.cons_ne_nil v vs) (List.forall_mem_cons.mpr ⟨?_, ?_⟩)
    · exact first.writable hc.2.2.1 hv
    · exact Literal.writable_later hc.2.2.2.1 hvs
  | .nested first rest, property, t, hc, hproperty, ht => by
    obtain ⟨u, us, hu, hus, rfl⟩ := Condition.term?_nested_eq_some_iff.mp ht
    simp only [Condition.tokens, List.forall_mem_cons, List.forall_mem_append] at hc
    refine .nested hproperty (List.cons_ne_nil u us) (List.forall_mem_cons.mpr ⟨?_, ?_⟩)
    · exact first.writable hc.2.1 hu
    · exact Phrase.writable_later rest hc.2.2.1 hus

theorem Phrase.writable_later : (ps : List Phrase) → ∀ {us},
    (∀ x ∈ Phrase.later ps, x.WellFormed) → Phrase.terms? names ps = some us →
    ∀ u ∈ us, u.Writable names
  | [], us, _, hus => by
    cases hus
    nofun
  | p :: ps, us, hps, hus => by
    obtain ⟨u, us', hu, hus', rfl⟩ := Phrase.terms?_cons_eq_some_iff.mp hus
    simp only [Phrase.later, List.forall_mem_cons, List.forall_mem_append] at hps
    refine List.forall_mem_cons.mpr ⟨?_, ?_⟩
    · exact p.writable hps.2.1 hu
    · exact Phrase.writable_later ps hps.2.2 hus'

end

theorem Clause.writable {c : Clause} {ts : List Term} (hc : ∀ x ∈ c.tokens, x.WellFormed)
    (hts : c.terms? names = some ts) : WritableClause names ts := by
  obtain ⟨u, us, hu, hus, rfl⟩ := Clause.terms?_eq_some_iff.mp hts
  obtain ⟨hfirst, hrest⟩ := List.forall_mem_append.mp hc
  refine ⟨List.cons_ne_nil u us, List.forall_mem_cons.mpr ⟨?_, ?_⟩⟩
  · exact c.first.writable hfirst hu
  · exact Phrase.writable_later c.rest hrest hus

end Term

end ResourceQuery
