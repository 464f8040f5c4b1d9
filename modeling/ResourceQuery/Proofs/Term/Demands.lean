import ResourceQuery.Proofs.Term.Acceptance
import ResourceQuery.Proofs.Term.Writable

/-!
# Where clauses that are accepted

The parser of where clauses accepts exactly the token lists that derivations have, and returns
what they mean. That only these are accepted is proved from the end of a text: what the open
blocks of a draft and its expectation still demand of the tokens to come is written down, and a
token that is accepted turns the demand after it into the demand before it.
-/

namespace ResourceQuery.Term

set_option autoImplicit false

variable {names : PrefixMap} {d d' : Draft} {t : Token} {ts : List Token} {result : List Term}
  {enclosing : List (QualifiedName × List Term)} {terms : List Term} {slot : Slot} {v : Value}
  {property : QualifiedName} {operands : List Value}

/-- The tokens close each open block, with terms of derivations before its end, and come to
`result`. -/
def Closes (names : PrefixMap) : List (QualifiedName × List Term) → List Term → List Token →
    List Term → Prop
  | [], terms, ts, result => ts = [] ∧ result = terms.reverse
  | (property, earlier) :: outer, terms, ts, result =>
    ∃ ps us after, ts = .mark .closeBrace :: (Phrase.later ps ++ after) ∧
      Phrase.terms? names ps = some us ∧
      Closes names outer (us.reverse ++ .nested property terms.reverse :: earlier) after result

/-- More terms may come before a block is closed. -/
def Continues (names : PrefixMap) (enclosing : List (QualifiedName × List Term))
    (terms : List Term) (ts : List Token) (result : List Term) : Prop :=
  ∃ ps us after, ts = Phrase.later ps ++ after ∧ Phrase.terms? names ps = some us ∧
    Closes names enclosing (us.reverse ++ terms) after result

/-- More operands may come before a list is closed. -/
def Lists (names : PrefixMap) (enclosing : List (QualifiedName × List Term))
    (terms : List Term) (property : QualifiedName) (operands : List Value) (ts : List Token)
    (result : List Term) : Prop :=
  ∃ ls vs after, ts = Literal.later ls ++ .mark .closeBracket :: after ∧
    ls.mapM (Literal.value? names) = some vs ∧
    Continues names enclosing (.membership property (operands.reverse ++ vs) :: terms) after result

namespace Draft

/-- What is demanded of the tokens after an operand. -/
def DemandsAfter (names : PrefixMap) (d : Draft) (v : Value) (ts : List Token)
    (result : List Term) : Slot → Prop
  | .comparison property relation =>
    Continues names d.enclosing (.comparison property relation v :: d.terms) ts result
  | .membership property earlier =>
    Lists names d.enclosing d.terms property (v :: earlier) ts result

/-- What is demanded of the tokens after a string. -/
inductive DemandsQualified (names : PrefixMap) (d : Draft) (slot : Slot) (body : String)
    (result : List Term) : List Token → Prop where
  | plain {ts : List Token} (h : d.DemandsAfter names (.string body) ts result slot) :
    DemandsQualified names d slot body result ts
  | typed {n : WrittenName} {q : QualifiedName} {ts : List Token} (hq : n.name? names = some q)
    (h : d.DemandsAfter names (.typed body q) ts result slot) :
    DemandsQualified names d slot body result (.mark .datatype :: n.token :: ts)
  | tagged {tag : String} {ts : List Token}
    (h : d.DemandsAfter names (.tagged body tag) ts result slot) :
    DemandsQualified names d slot body result (.language tag :: ts)

/-- What a draft demands of the tokens to come if they are to make `result` of it. -/
def Demands (names : PrefixMap) (d : Draft) (ts : List Token) (result : List Term) : Prop :=
  match d.expects with
  | .term =>
    ∃ p t after, ts = Phrase.tokens p ++ after ∧ p.term? names = some t ∧
      Continues names d.enclosing (t :: d.terms) after result
  | .operator property =>
    ∃ c t after, ts = Condition.tokens c ++ after ∧ c.term? names property = some t ∧
      Continues names d.enclosing (t :: d.terms) after result
  | .list property =>
    ∃ l v after, ts = .mark .openBracket :: (Literal.tokens l ++ after) ∧
      l.value? names = some v ∧ Lists names d.enclosing d.terms property [v] after result
  | .operand slot =>
    ∃ l v after, ts = Literal.tokens l ++ after ∧ l.value? names = some v ∧
      d.DemandsAfter names v after result slot
  | .magnitude slot negative =>
    ∃ digits v after, ts = .number digits :: after ∧ decimal? negative digits = some v ∧
      d.DemandsAfter names v after result slot
  | .qualifier slot body => d.DemandsQualified names slot body result ts
  | .datatype slot body =>
    ∃ (n : WrittenName) (q : QualifiedName) (after : List Token), ts = n.token :: after ∧
      n.name? names = some q ∧ d.DemandsAfter names (.typed body q) after result slot
  | .separator property operands => Lists names d.enclosing d.terms property operands ts result
  | .conjunction => Continues names d.enclosing d.terms ts result

theorem demands_place (h : (d.place v slot).Demands names ts result) :
    d.DemandsAfter names v ts result slot := by
  cases slot <;> exact h

theorem demands_term (h : step names ⟨enclosing, terms, .term⟩ t = .ok d')
    (hd : d'.Demands names ts result) :
    Demands names ⟨enclosing, terms, .term⟩ (t :: ts) result := by
  unfold step at h
  simp only at h
  split at h
  · rename_i property hproperty
    cases h
    obtain ⟨n, rfl, hn⟩ := qualify_eq_ok_iff.mp hproperty
    obtain ⟨c, u, after, rfl, hc, hafter⟩ := hd
    exact ⟨.mk n c, u, after, rfl, Phrase.term?_eq_some_iff.mpr ⟨property, hn, hc⟩, hafter⟩
  · cases h

theorem demands_operator (h : step names ⟨enclosing, terms, .operator property⟩ t = .ok d')
    (hd : d'.Demands names ts result) :
    Demands names ⟨enclosing, terms, .operator property⟩ (t :: ts) result := by
  unfold step at h
  simp only at h
  split at h
  · rename_i relation
    cases h
    obtain ⟨l, v, after, rfl, hv, hafter⟩ := hd
    exact ⟨.comparison relation l, .comparison property relation v, after, rfl,
      Condition.term?_comparison_eq_some_iff.mpr ⟨v, hv, rfl⟩, hafter⟩
  · cases h
    obtain ⟨l, v, _, rfl, hv, ls, vs, after, rfl, hvs, hafter⟩ := hd
    refine ⟨.membership l ls, .membership property (v :: vs), after, ?_,
      Condition.term?_membership_eq_some_iff.mpr ⟨v, vs, hv, hvs, rfl⟩, hafter⟩
    simp only [Condition.tokens, List.cons_append, List.append_assoc, List.nil_append]
  · cases h
    -- The block that opens closes at the first brace that is demanded; what goes on behind it
    -- belongs to the blocks around it.
    obtain ⟨p, u, _, rfl, hu, ps, us, _, rfl, hus, ps', us', after, rfl, hus', hafter⟩ := hd
    refine ⟨.nested p ps, .nested property (u :: us), Phrase.later ps' ++ after, ?_,
      Condition.term?_nested_eq_some_iff.mpr ⟨u, us, hu, hus, rfl⟩, ps', us', after, rfl, hus', ?_⟩
    · simp only [Condition.tokens, List.cons_append, List.append_assoc, List.nil_append]
    · simpa only [List.reverse_append, List.reverse_reverse, List.reverse_singleton,
        List.singleton_append] using hafter
  · cases h

theorem demands_operand (h : step names ⟨enclosing, terms, .operand slot⟩ t = .ok d')
    (hd : d'.Demands names ts result) :
    Demands names ⟨enclosing, terms, .operand slot⟩ (t :: ts) result := by
  unfold step beginOperand at h
  simp only at h
  split at h
  · rename_i reference
    cases h
    exact ⟨.uri reference, _, ts, rfl, rfl, demands_place hd⟩
  · rename_i value
    cases h
    exact ⟨.boolean value, _, ts, rfl, rfl, demands_place hd⟩
  · cases h
    obtain ⟨digits, v, after, rfl, hv, hafter⟩ := hd
    exact ⟨.signed false digits, v, after, rfl, hv, hafter⟩
  · cases h
    obtain ⟨digits, v, after, rfl, hv, hafter⟩ := hd
    exact ⟨.signed true digits, v, after, rfl, hv, hafter⟩
  · rename_i digits
    obtain ⟨v, hv, rfl⟩ := placeNumber_eq_ok_iff.mp h
    exact ⟨.number digits, v, ts, rfl, hv, demands_place hd⟩
  · rename_i body
    cases h
    cases hd with
    | plain hafter => exact ⟨.string body, _, ts, rfl, rfl, hafter⟩
    | @typed n q after hq hafter =>
      have hv : (Literal.typed body n).value? names = some (.typed body q) := by
        simp only [Literal.value?, hq, Option.map_some]
      exact ⟨.typed body n, _, after, rfl, hv, hafter⟩
    | @tagged tag after hafter => exact ⟨.tagged body tag, _, after, rfl, rfl, hafter⟩
  · cases h
  · split at h <;> cases h
  · cases h

theorem demands_afterOperand (h : afterOperand ⟨enclosing, terms, .separator property operands⟩
      property operands t = .ok d') (hd : d'.Demands names ts result) :
    Lists names enclosing terms property operands (t :: ts) result := by
  unfold afterOperand at h
  split at h
  · cases h
    obtain ⟨l, v, _, rfl, hv, ls, vs, after, rfl, hvs, hafter⟩ := hd
    refine ⟨l :: ls, v :: vs, after, ?_,
      Literal.mapM_cons_eq_some_iff.mpr ⟨v, vs, hv, hvs, rfl⟩, ?_⟩
    · simp only [Literal.later, List.flatMap_cons, List.cons_append, List.append_assoc]
    · simpa only [List.reverse_cons, List.append_assoc, List.singleton_append] using hafter
  · cases h
    refine ⟨[], [], ts, rfl, rfl, ?_⟩
    rw [List.append_nil]
    exact hd
  · cases h

theorem demands_afterTerm {e : Expects} (h : afterTerm ⟨enclosing, terms, e⟩ t = .ok d')
    (hd : d'.Demands names ts result) : Continues names enclosing terms (t :: ts) result := by
  unfold afterTerm at h
  split at h
  · cases h
    obtain ⟨p, u, _, rfl, hu, ps, us, after, rfl, hus, hafter⟩ := hd
    refine ⟨p :: ps, u :: us, after, ?_,
      Phrase.terms?_cons_eq_some_iff.mpr ⟨u, us, hu, hus, rfl⟩, ?_⟩
    · simp only [Phrase.later, List.cons_append, List.append_assoc]
    · simpa only [List.reverse_cons, List.append_assoc, List.singleton_append] using hafter
  · rename_i property earlier outer henclosing
    cases h
    simp only at henclosing
    subst henclosing
    obtain ⟨ps, us, after, rfl, hus, hafter⟩ := hd
    exact ⟨[], [], _, rfl, rfl, ps, us, after, rfl, hus, hafter⟩
  · cases h
  · cases h

theorem demands_qualifier {body : String}
    (h : step names ⟨enclosing, terms, .qualifier slot body⟩ t = .ok d')
    (hd : d'.Demands names ts result) :
    Demands names ⟨enclosing, terms, .qualifier slot body⟩ (t :: ts) result := by
  unfold step at h
  simp only at h
  split at h
  · cases h
    obtain ⟨n, q, after, rfl, hq, hafter⟩ := hd
    exact .typed hq hafter
  · cases h
    exact .tagged (demands_place hd)
  · apply DemandsQualified.plain
    cases slot with
    | comparison property relation => exact demands_afterTerm h hd
    | membership property earlier => exact demands_afterOperand h hd

theorem demands_of_step (h : d.step names t = .ok d') (hd : d'.Demands names ts result) :
    d.Demands names (t :: ts) result := by
  obtain ⟨enclosing, terms, expects⟩ := d
  cases expects with
  | term => exact demands_term h hd
  | operator property => exact demands_operator h hd
  | list property =>
    unfold step at h
    simp only at h
    split at h
    · cases h
      obtain ⟨l, v, after, rfl, hv, hafter⟩ := hd
      exact ⟨l, v, after, rfl, hv, hafter⟩
    · cases h
  | operand slot => exact demands_operand h hd
  | magnitude slot negative =>
    unfold step at h
    simp only at h
    split at h
    · rename_i digits
      obtain ⟨v, hv, rfl⟩ := placeNumber_eq_ok_iff.mp h
      exact ⟨digits, v, ts, rfl, hv, demands_place hd⟩
    · cases h
  | qualifier slot body => exact demands_qualifier h hd
  | datatype slot body =>
    unfold step at h
    simp only at h
    split at h
    · rename_i q hq
      cases h
      obtain ⟨n, rfl, hn⟩ := qualify_eq_ok_iff.mp hq
      exact ⟨n, q, ts, rfl, hn, demands_place hd⟩
    · cases h
  | separator property operands => exact demands_afterOperand h hd
  | conjunction => exact demands_afterTerm h hd

theorem continues_of_finishPlaced (h : d.finishPlaced = .ok result) :
    Continues names d.enclosing d.terms [] result := by
  unfold finishPlaced at h
  split at h
  · cases h
  · rename_i henclosing _
    cases h
    refine ⟨[], [], [], rfl, rfl, ?_⟩
    rw [henclosing]
    exact ⟨rfl, rfl⟩
  · cases h

theorem demands_of_finish (h : d.finish = .ok result) : d.Demands names [] result := by
  obtain ⟨enclosing, terms, expects⟩ := d
  cases expects with
  | term | operator _ | list _ | operand _ | magnitude _ _ | datatype _ _ | separator _ _ => cases h
  | qualifier slot body =>
    apply DemandsQualified.plain
    cases slot with
    | comparison property relation => exact continues_of_finishPlaced h
    | membership property earlier => cases h
  | conjunction => exact continues_of_finishPlaced h

theorem demands_of_run (h : d.run names ts = .ok result) : d.Demands names ts result := by
  induction ts generalizing d with
  | nil => exact demands_of_finish h
  | cons t ts ih =>
    cases hstep : d.step names t with
    | error problem =>
      rw [run_cons_error hstep] at h
      cases h
    | ok d' =>
      rw [run_cons_ok hstep] at h
      exact demands_of_step hstep (ih h)

end Draft

theorem run_eq_ok_iff_derives :
    Draft.run names ⟨[], [], .term⟩ ts = .ok result ↔
      ∃ c : Clause, c.tokens = ts ∧ c.terms? names = some result := by
  constructor
  · intro h
    obtain ⟨p, t, _, rfl, ht, ps, us, _, rfl, hus, rfl, rfl⟩ := Draft.demands_of_run h
    refine ⟨⟨p, ps⟩, ?_, Clause.terms?_eq_some_iff.mpr ⟨t, us, ht, hus, ?_⟩⟩
    · rw [Clause.tokens, List.append_nil]
    · simp only [List.reverse_append, List.reverse_reverse, List.reverse_singleton,
        List.singleton_append]
  · rintro ⟨⟨p, ps⟩, rfl, h⟩
    obtain ⟨t, us, ht, hus, rfl⟩ := Clause.terms?_eq_some_iff.mp h
    have hend : Draft.run names ⟨[], us.reverse ++ [t], .conjunction⟩ [] =
        .ok (us.reverse ++ [t]).reverse := rfl
    rw [Clause.tokens, ← List.append_nil (Phrase.later ps), Draft.run_phrase p ht
      (settles_later settles_nil), Draft.run_later ps hus settles_nil, hend]
    simp only [List.reverse_append, List.reverse_reverse, List.reverse_singleton,
      List.singleton_append]

theorem parse_eq_ok_iff {text : String} :
    parse names text = .ok result ↔
      ∃ ts, tokenize text = .ok ts ∧ ∃ c : Clause, c.tokens = ts ∧ c.terms? names = some result := by
  have hstep : ∀ (d : Draft) (x : Lexeme), (grammar names).step d x = d.step names x.token :=
    fun _ _ => rfl
  rw [parse, Grammar.parse_eq_ok_iff_tokenize hstep]
  simp only [← run_eq_ok_iff_derives]
  rfl

theorem writableClause_of_parse {text : String} (h : parse names text = .ok result) :
    WritableClause names result := by
  obtain ⟨ts, htokens, c, rfl, hc⟩ := parse_eq_ok_iff.mp h
  exact Clause.writable (Lexer.Tokenizes.wellFormed (tokenize_eq_ok_iff.mp htokens)) hc

/-- The parser accepts a text if its tokens have a derivation that means something, and returns
what it means. No tokens have two derivations, and no list of a result is empty. -/
theorem parse_eq_ok_iff_derives (names : PrefixMap) (text : String) (result : List Term) :
    (parse names text = .ok result ↔
      ∃ ts, tokenize text = .ok ts ∧
        ∃ c : Clause, c.tokens = ts ∧ c.terms? names = some result) ∧
    Function.Injective Clause.tokens ∧
    (parse names text = .ok result → result ≠ [] ∧ ∀ t ∈ result, t.Filled) := by
  refine ⟨parse_eq_ok_iff, Clause.tokens_injective, ?_⟩
  intro h
  have hwritable := writableClause_of_parse h
  exact ⟨hwritable.nonempty, fun t ht => (hwritable.terms t ht).filled⟩

end ResourceQuery.Term
