import ResourceQuery.Proofs.Parser.Run
import ResourceQuery.Proofs.Term.Derivation

/-!
# Reading what a derivation has for leaves

Whatever comes after, reading the tokens of a derivation does what placing its meaning does. The
proof goes by the structure of the derivation. A string is placed only when the next token is
seen, so the tokens after a value must not go on with it.
-/

namespace ResourceQuery.Term

set_option autoImplicit false

variable {names : PrefixMap} {d d' : Draft} {t : Token} {xs ts : List Token}
  {enclosing : List (QualifiedName × List Term)} {terms : List Term} {slot : Slot} {v : Value}
  {property : QualifiedName} {operands : List Value}

theorem qualify_eq_ok_iff {wanted : Expectation} {q : QualifiedName} :
    names.qualify wanted t = .ok q ↔ ∃ n : WrittenName, t = n.token ∧ n.name? names = some q := by
  constructor
  · intro h
    cases t with
    | prefixed pfx localName =>
      refine ⟨⟨pfx, localName⟩, rfl, ?_⟩
      unfold PrefixMap.qualify at h
      simp only at h
      split at h
      · rename_i space hspace
        cases h
        simp only [WrittenName.name?, hspace, Option.map_some]
      · cases h
    | _ => cases h
  · rintro ⟨⟨pfx, localName⟩, rfl, h⟩
    obtain ⟨space, hspace, rfl⟩ := Option.map_eq_some_iff.mp h
    simp only [WrittenName.token, PrefixMap.qualify, hspace]

theorem Draft.placeNumber_eq_ok_iff {negative : Bool} {digits : String} :
    d.placeNumber slot negative digits = .ok d' ↔
      ∃ v, decimal? negative digits = some v ∧ d' = d.place v slot := by
  unfold Draft.placeNumber decimal?
  cases Decimal.ofDigits negative digits.toList with
  | error reason => simp [Except.toOption]
  | ok value => simp [Except.toOption, eq_comm]

namespace Draft

/-- What comes of a draft when some tokens are all that is left. -/
def run (names : PrefixMap) (d : Draft) (ts : List Token) : Except Problem (List Term) :=
  feed (step names) finish d ts

theorem run_cons_ok (h : d.step names t = .ok d') : d.run names (t :: ts) = d'.run names ts :=
  feed_cons_ok h

theorem run_cons_error {problem : Problem} (h : d.step names t = .error problem) :
    d.run names (t :: ts) = .error problem := feed_cons_error h

/-- A string that no token goes on with is placed as it is. -/
theorem run_qualifier {body : String} (hxs : Settles xs) :
    run names ⟨enclosing, terms, .qualifier slot body⟩ xs =
      ((⟨enclosing, terms, .term⟩ : Draft).place (.string body) slot).run names xs := by
  cases xs with
  | nil => cases slot <;> rfl
  | cons t ts =>
    -- Where no qualifier comes, the string is placed first and the token is taken after it.
    have hstep : step names ⟨enclosing, terms, .qualifier slot body⟩ t =
        ((⟨enclosing, terms, .term⟩ : Draft).place (.string body) slot).afterPlace t := by
      have ht : qualifies t = false := hxs t rfl
      unfold step
      simp only
      split
      · cases ht
      · cases ht
      · rfl
    have hplaced : ((⟨enclosing, terms, .term⟩ : Draft).place (.string body) slot).step names t =
        ((⟨enclosing, terms, .term⟩ : Draft).place (.string body) slot).afterPlace t := by
      cases slot <;> rfl
    rw [run, run, feed, feed, List.foldlM_cons, List.foldlM_cons, hstep, hplaced]

theorem run_literal {l : Literal} (hv : l.value? names = some v) (hxs : Settles xs) :
    run names ⟨enclosing, terms, .operand slot⟩ (l.tokens ++ xs) =
      ((⟨enclosing, terms, .term⟩ : Draft).place v slot).run names xs := by
  cases l with
  | uri reference =>
    cases hv
    exact run_cons_ok rfl
  | boolean value =>
    cases hv
    exact run_cons_ok rfl
  | number digits => exact run_cons_ok (placeNumber_eq_ok_iff.mpr ⟨v, hv, rfl⟩)
  | signed negative digits =>
    have hsign : step names ⟨enclosing, terms, .operand slot⟩ (sign negative) =
        .ok ⟨enclosing, terms, .magnitude slot negative⟩ := by
      cases negative <;> rfl
    rw [Literal.tokens, List.cons_append, run_cons_ok hsign]
    exact run_cons_ok (placeNumber_eq_ok_iff.mpr ⟨v, hv, rfl⟩)
  | string body =>
    cases hv
    exact (run_cons_ok rfl).trans (run_qualifier hxs)
  | typed body datatype =>
    obtain ⟨q, hq, rfl⟩ := Option.map_eq_some_iff.mp hv
    have hname : step names ⟨enclosing, terms, .datatype slot body⟩ datatype.token =
        .ok ((⟨enclosing, terms, .term⟩ : Draft).place (.typed body q) slot) := by
      unfold step
      simp only [qualify_eq_ok_iff.mpr ⟨datatype, rfl, hq⟩]
      cases slot <;> rfl
    calc run names ⟨enclosing, terms, .operand slot⟩ ((Literal.typed body datatype).tokens ++ xs)
      _ = run names ⟨enclosing, terms, .datatype slot body⟩ (datatype.token :: xs) := rfl
      _ = _ := run_cons_ok hname
  | tagged body tag =>
    cases hv
    calc run names ⟨enclosing, terms, .operand slot⟩ ((Literal.tagged body tag).tokens ++ xs)
      _ = run names ⟨enclosing, terms, .qualifier slot body⟩ (.language tag :: xs) := rfl
      _ = _ := run_cons_ok rfl

theorem run_literal_later {ls : List Literal} {vs : List Value}
    (h : ls.mapM (Literal.value? names) = some vs) :
    run names ⟨enclosing, terms, .separator property operands⟩
        (Literal.later ls ++ .mark .closeBracket :: xs) =
      run names ⟨enclosing, .membership property (operands.reverse ++ vs) :: terms, .conjunction⟩
        xs := by
  induction ls generalizing operands vs with
  | nil =>
    rw [List.mapM_nil] at h
    cases h
    rw [List.append_nil]
    exact run_cons_ok rfl
  | cons l ls ih =>
    obtain ⟨v, vs', hv, hvs', rfl⟩ := Literal.mapM_cons_eq_some_iff.mp h
    have hcomma : run names ⟨enclosing, terms, .separator property operands⟩
        (Literal.later (l :: ls) ++ .mark .closeBracket :: xs) =
        run names ⟨enclosing, terms, .operand (.membership property operands)⟩
          (l.tokens ++ (Literal.later ls ++ .mark .closeBracket :: xs)) := by
      simp only [Literal.later, List.flatMap_cons, List.cons_append, List.append_assoc]
      exact run_cons_ok rfl
    calc run names ⟨enclosing, terms, .separator property operands⟩
          (Literal.later (l :: ls) ++ .mark .closeBracket :: xs)
      _ = run names ⟨enclosing, terms, .operand (.membership property operands)⟩
            (l.tokens ++ (Literal.later ls ++ .mark .closeBracket :: xs)) := hcomma
      _ = run names ⟨enclosing, terms, .separator property (v :: operands)⟩
            (Literal.later ls ++ .mark .closeBracket :: xs) :=
          run_literal hv (settles_literal_later (settles_cons rfl))
      _ = run names ⟨enclosing, .membership property ((v :: operands).reverse ++ vs') :: terms,
            .conjunction⟩ xs := ih hvs'
      _ = _ := by simp only [List.reverse_cons, List.append_assoc, List.singleton_append]

mutual

theorem run_phrase : (p : Phrase) → ∀ {t enclosing terms xs}, p.term? names = some t →
    Settles xs → run names ⟨enclosing, terms, .term⟩ (p.tokens ++ xs) =
      run names ⟨enclosing, t :: terms, .conjunction⟩ xs
  | .mk name condition, t, enclosing, terms, xs, ht, hxs => by
    obtain ⟨property, hproperty, ht⟩ := Phrase.term?_eq_some_iff.mp ht
    have hname : step names ⟨enclosing, terms, .term⟩ name.token =
        .ok ⟨enclosing, terms, .operator property⟩ := by
      simp only [step, qualify_eq_ok_iff.mpr ⟨name, rfl, hproperty⟩, await]
    rw [Phrase.tokens, List.cons_append, run_cons_ok hname]
    exact run_condition condition ht hxs

theorem run_condition : (c : Condition) → ∀ {property t enclosing terms xs},
    c.term? names property = some t → Settles xs →
    run names ⟨enclosing, terms, .operator property⟩ (c.tokens ++ xs) =
      run names ⟨enclosing, t :: terms, .conjunction⟩ xs
  | .comparison relation operand, property, t, enclosing, terms, xs, ht, hxs => by
    obtain ⟨v, hv, rfl⟩ := Condition.term?_comparison_eq_some_iff.mp ht
    exact (run_cons_ok rfl).trans (run_literal hv hxs)
  | .membership first rest, property, t, enclosing, terms, xs, ht, hxs => by
    obtain ⟨v, vs, hv, hvs, rfl⟩ := Condition.term?_membership_eq_some_iff.mp ht
    simp only [Condition.tokens, List.cons_append, List.append_assoc, List.nil_append]
    calc run names ⟨enclosing, terms, .operator property⟩ (.mark .membership ::
          .mark .openBracket :: (first.tokens ++ (Literal.later rest ++ .mark .closeBracket :: xs)))
      _ = run names ⟨enclosing, terms, .operand (.membership property [])⟩
            (first.tokens ++ (Literal.later rest ++ .mark .closeBracket :: xs)) := rfl
      _ = run names ⟨enclosing, terms, .separator property [v]⟩
            (Literal.later rest ++ .mark .closeBracket :: xs) :=
          run_literal hv (settles_literal_later (settles_cons rfl))
      _ = _ := run_literal_later hvs
  | .nested first rest, property, t, enclosing, terms, xs, ht, hxs => by
    obtain ⟨u, us, hu, hus, rfl⟩ := Condition.term?_nested_eq_some_iff.mp ht
    simp only [Condition.tokens, List.cons_append, List.append_assoc, List.nil_append]
    have hclose : Settles (.mark .closeBrace :: xs) := settles_cons rfl
    calc run names ⟨enclosing, terms, .operator property⟩ (.mark .openBrace ::
          (first.tokens ++ (Phrase.later rest ++ .mark .closeBrace :: xs)))
      _ = run names ⟨(property, terms) :: enclosing, [], .term⟩
            (first.tokens ++ (Phrase.later rest ++ .mark .closeBrace :: xs)) := rfl
      _ = run names ⟨(property, terms) :: enclosing, [u], .conjunction⟩
            (Phrase.later rest ++ .mark .closeBrace :: xs) :=
          run_phrase first hu (settles_later hclose)
      _ = run names ⟨(property, terms) :: enclosing, us.reverse ++ [u], .conjunction⟩
            (.mark .closeBrace :: xs) := run_later rest hus hclose
      _ = run names ⟨enclosing, .nested property (us.reverse ++ [u]).reverse :: terms,
            .conjunction⟩ xs := rfl
      _ = _ := by simp only [List.reverse_append, List.reverse_reverse, List.reverse_singleton,
            List.singleton_append]

theorem run_later : (ps : List Phrase) → ∀ {us enclosing terms xs},
    Phrase.terms? names ps = some us → Settles xs →
    run names ⟨enclosing, terms, .conjunction⟩ (Phrase.later ps ++ xs) =
      run names ⟨enclosing, us.reverse ++ terms, .conjunction⟩ xs
  | [], us, enclosing, terms, xs, hus, hxs => by
    cases hus
    rfl
  | p :: ps, us, enclosing, terms, xs, hus, hxs => by
    obtain ⟨u, us', hu, hus', rfl⟩ := Phrase.terms?_cons_eq_some_iff.mp hus
    simp only [Phrase.later, List.cons_append, List.append_assoc]
    calc run names ⟨enclosing, terms, .conjunction⟩
          (.mark .conjunction :: (p.tokens ++ (Phrase.later ps ++ xs)))
      _ = run names ⟨enclosing, terms, .term⟩ (p.tokens ++ (Phrase.later ps ++ xs)) := rfl
      _ = run names ⟨enclosing, u :: terms, .conjunction⟩ (Phrase.later ps ++ xs) :=
          run_phrase p hu (settles_later hxs)
      _ = run names ⟨enclosing, us'.reverse ++ u :: terms, .conjunction⟩ xs :=
          run_later ps hus' hxs
      _ = _ := by simp only [List.reverse_cons, List.append_assoc, List.singleton_append]

end

end Draft

end ResourceQuery.Term
