import ResourceQuery.Proofs.Clause.FirstFault

/-!
# Faults of the lexer in the errors of the clauses

A parser asks for a token when the grammar has accepted the one before it. So a fault of the lexer
is the error of the clause when all tokens before the fault are accepted, and otherwise the error
lies at or before a token that comes earlier. A grammar finds no fault of that kind: in a text of
tokens only a number that is no decimal is a lexical error.
-/

namespace ResourceQuery

set_option autoImplicit false

variable {σ α : Type} {g : Grammar σ α} {text : String} {x : ParseError} {e : LexError}

/-- The error is told as the fault of the lexer is, with nothing behind it. -/
structure ParseError.Reports (x : ParseError) (e : LexError) : Prop where
  kind : x.kind = .lexical
  message : x.message = e.message
  fragment : x.fragment = e.fragment
  offset : x.offset = e.offset
  cause : x.cause = none

theorem LexError.reports_toParseError (e : LexError) : e.toParseError.Reports e :=
  ⟨rfl, rfl, rfl, rfl, rfl⟩

theorem LexError.ne_toParseError_iff :
    (∀ e : LexError, x ≠ e.toParseError) ↔ ∀ fault, x.problem ≠ .lexical fault := by
  constructor
  · intro h fault hfault
    obtain ⟨problem, fragment, offset⟩ := x
    cases hfault
    exact h ⟨fault, fragment, offset⟩ rfl
  · rintro h e rfl
    exact h e.fault rfl

/-- A lexical error that does not come of the lexer comes of a number. -/
theorem Problem.exists_misfit_of_kind {problem : Problem} (h : problem.kind = .lexical)
    (hne : ∀ fault, problem ≠ .lexical fault) : ∃ reason, problem.cause = some (.misfit reason) := by
  cases problem with
  | lexical fault => exact absurd rfl (hne fault)
  | misfit negative digits reason => exact ⟨reason, rfl⟩
  | _ => cases h

namespace Grammar.Regular

/-- The tokens before a fault of the lexer are read first. -/
theorem error_of_tokenize_error (hg : g.Regular) (h : tokenize text = .error e) :
    ∃ x, g.parse text = .error x ∧
      (x = e.toParseError ∨ x.offset < e.offset ∧ ∀ fault, x.problem ≠ .lexical fault) := by
  have hending : (Lexer.ofString text).ending = .error e := Lexer.ending_eq_error_iff.mpr h
  obtain ⟨x, hx⟩ : ∃ x, g.parse text = .error x := by
    rw [parse_eq_run, hending]
    exact exists_run_eq_error _ _
  refine ⟨x, hx, ?_⟩
  rw [parse_eq_run] at hx
  obtain ⟨before, after, s, hspans, hfold, hrefuses⟩ := exists_refuses_of_run hx
  have hoffset := hg.offset_le_of_refuses hspans hfold hrefuses
  cases hrefuses with
  | fault he =>
    rw [hending] at he
    cases he
    exact Or.inl rfl
  | finish hok =>
    rw [hending] at hok
    cases hok
  | @step span spans problem hstep =>
    have hmem : span ∈ (Lexer.ofString text).spans := by
      rw [hspans]
      exact List.mem_append_right _ List.mem_cons_self
    have hle := hoffset span List.mem_cons_self
    have hlt := (Lexer.stands_of_mem_spans hmem).start_lt
    have hstop := Lexer.stop_le_of_ending_error hending span hmem
    refine Or.inr ⟨by omega, ?_⟩
    intro fault hfault
    rw [Parser.problem_locate] at hfault
    exact hg.faultless.step (hfault ▸ hstep)

/-- Without a fault of the lexer there is no error that comes of one. -/
theorem ne_lexical_of_tokenize_ok (hg : g.Regular) {ts : List Token} (h : tokenize text = .ok ts)
    (hx : g.parse text = .error x) : ∀ fault, x.problem ≠ .lexical fault := by
  obtain ⟨l, hending⟩ := Lexer.exists_ending_iff.mpr ⟨ts, h⟩
  rw [parse_eq_run] at hx
  obtain ⟨before, after, s, _, _, hrefuses⟩ := exists_refuses_of_run hx
  intro fault hfault
  cases hrefuses with
  | fault he =>
    rw [hending] at he
    cases he
  | finish _ hfinish =>
    rw [Parser.problem_locate] at hfault
    exact hg.faultless.finish (hfault ▸ hfinish)
  | step hstep =>
    rw [Parser.problem_locate] at hfault
    exact hg.faultless.step (hfault ▸ hstep)

end Grammar.Regular

/-- A text that is no text of tokens has the error of the lexer or an earlier one; in a text of
tokens no error comes of the lexer; and what is a clause is a text of tokens. -/
theorem Clause.parse_agrees_with_tokenize (names : PrefixMap) (clause : Clause) (text : String) :
    (∀ e, tokenize text = .error e → ∃ x, clause.parse names text = .error x ∧
      (x = e.toParseError ∧ x.Reports e ∨
        x.offset < e.offset ∧ ∀ e' : LexError, x ≠ e'.toParseError)) ∧
    (∀ ts, tokenize text = .ok ts → ∀ x, clause.parse names text = .error x →
      (∀ e : LexError, x ≠ e.toParseError) ∧
      (x.kind = .lexical → ∃ reason, x.cause = some (.misfit reason))) ∧
    ∀ tree, clause.parse names text = .ok tree → ∃ ts, tokenize text = .ok ts := by
  obtain ⟨σ, α, g, f, hg, hparse, _⟩ := clause.exists_grammar names
  have hfault : ∀ e, tokenize text = .error e → ∃ x, clause.parse names text = .error x ∧
      (x = e.toParseError ∨ x.offset < e.offset ∧ ∀ fault, x.problem ≠ .lexical fault) := by
    intro e he
    obtain ⟨x, hx, hcases⟩ := hg.error_of_tokenize_error he
    exact ⟨x, by rw [hparse, map_eq_error_iff, hx], hcases⟩
  refine ⟨?_, ?_, ?_⟩
  · intro e he
    obtain ⟨x, hx, rfl | ⟨hlt, hne⟩⟩ := hfault e he
    · exact ⟨_, hx, Or.inl ⟨rfl, e.reports_toParseError⟩⟩
    · exact ⟨x, hx, Or.inr ⟨hlt, LexError.ne_toParseError_iff.mpr hne⟩⟩
  · intro ts hts x hx
    rw [hparse, map_eq_error_iff] at hx
    have hne := hg.ne_lexical_of_tokenize_ok hts hx
    exact ⟨LexError.ne_toParseError_iff.mpr hne, fun hkind => x.problem.exists_misfit_of_kind hkind hne⟩
  · intro tree htree
    cases htokens : tokenize text with
    | ok ts => exact ⟨ts, rfl⟩
    | error e =>
      obtain ⟨x, hx, _⟩ := hfault e htokens
      rw [hx] at htree
      cases htree

/-- A key without a sign is reported at its own place, before the comma that shows it and before
the fault behind the comma; a number too large is the only lexical error of a text of tokens. -/
theorem Clause.parse_agrees_with_tokenize_early :
    let names := PrefixMap.empty.insert "p" "http://e/"
    (∃ x, Clause.orderBy.parse names "p:a,!" = .error x ∧ x.offset < 4 ∧
      ∀ e : LexError, x ≠ e.toParseError) ∧
    (∃ x reason, Clause.condition.parse names "p:a=99999999999999999999999999999" = .error x ∧
      x.cause = some (.misfit reason)) ∧
    ∃ ts, tokenize "+p:a" = .ok ts := by
  intro names
  have hbang : tokenize "p:a,!" = .error ⟨.loneBang, "!", 4⟩ := by decide +kernel
  have hlarge : (tokenize "p:a=99999999999999999999999999999").map (fun _ => ()) = .ok () := by
    decide +kernel
  have hkey : (Clause.orderBy.parse names "p:a,!").map (fun _ => ()) =
      .error ⟨.undirected "p:a" 0, "p:a", 0⟩ := by decide +kernel
  have hmisfit : (Clause.condition.parse names "p:a=99999999999999999999999999999").map
      (fun _ => ()) = .error ⟨.misfit false "99999999999999999999999999999" .tooManyDigits,
        "99999999999999999999999999999", 4⟩ := by decide +kernel
  have haccepted : (Clause.orderBy.parse names "+p:a").map (fun _ => ()) = .ok () := by
    decide +kernel
  refine ⟨?_, ?_, ?_⟩
  · obtain ⟨x, hx, ⟨rfl, _⟩ | hearly⟩ :=
      (Clause.parse_agrees_with_tokenize names .orderBy _).1 _ hbang
    · rw [map_eq_error_iff, hx] at hkey
      cases hkey
    · exact ⟨x, hx, hearly⟩
  · obtain ⟨ts, hts, _⟩ := map_eq_ok_iff.mp hlarge
    have hx := map_eq_error_iff.mp hmisfit
    obtain ⟨reason, hreason⟩ :=
      ((Clause.parse_agrees_with_tokenize names .condition _).2.1 ts hts _ hx).2 rfl
    exact ⟨_, reason, hx, hreason⟩
  · obtain ⟨tree, htree, _⟩ := map_eq_ok_iff.mp haccepted
    exact (Clause.parse_agrees_with_tokenize names .orderBy _).2.2 tree htree

end ResourceQuery
