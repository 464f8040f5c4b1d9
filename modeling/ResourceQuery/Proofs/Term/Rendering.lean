import ResourceQuery.Proofs.Decimal.Digits
import ResourceQuery.Proofs.Lexer.Spelling
import ResourceQuery.Proofs.Term.Demands

/-!
# Reading rendered clauses

A clause that can be written is read back from its text just as it was, and every clause that is
read can be written. The text of a value or a term is split into the tokens of a derivation of
it, whatever comes after, as long as that begins as what can stand there. The one place where
more has to be said is `<`: an operand after it may be made of characters of URI references, and
no `>` follows it, since a blank, a brace or the end does.
-/

namespace ResourceQuery.Term

set_option autoImplicit false

open Reading Lexer

variable {names : PrefixMap} {rest w : List Char} {tokens later ts : List Token} {t : Token}
  {v : Value} {text more : String} {follow behind : List Char}

/-- The text has these tokens before every text that begins in `follow`. -/
def Spells (follow : List Char) (text : String) (tokens : List Token) : Prop :=
  ∀ (rest : List Char) (ts : List Token), BeginsIn follow rest → Tokenizes rest ts →
    Tokenizes (text.toList ++ rest) (tokens ++ ts)

/-- What follows a term. -/
def closers : List Char := [' ', '}']

theorem beginsIn_delimiters (h : BeginsIn closers rest) : BeginsIn delimiters rest := by
  intro c hc
  have hmem := h c hc
  simp only [closers, List.mem_cons, List.not_mem_nil, or_false] at hmem
  rcases hmem with rfl | rfl <;> decide

/-- A mark that anything may follow. -/
theorem tokenizes_mark {m : Mark} (hends : ∀ rest, EndsBefore (.mark m) rest)
    (h : Tokenizes rest ts) : Tokenizes (m.text.toList ++ rest) (.mark m :: ts) :=
  h.cons_of_wellFormed (t := .mark m) trivial (hends rest)

/-- A mark between two blanks. -/
theorem tokenizes_spaced_mark (m : Mark) (h : Tokenizes rest ts) :
    Tokenizes (' ' :: (m.text.toList ++ ' ' :: rest)) (.mark m :: ts) := by
  have hlater : Tokenizes (' ' :: rest) ts := h.skip (by decide)
  have hmark := hlater.cons_of_wellFormed (t := .mark m) trivial endsBefore_space
  exact hmark.skip (by decide)

/-- The second of two texts ends the first. -/
theorem Spells.append {c : Char} (h : Spells follow text tokens)
    (hmore : Spells behind more later) (hhead : more.toList.head? = some c) (hc : c ∈ follow) :
    Spells behind (text ++ more) (tokens ++ later) := by
  intro rest ts hrest hts
  have hall := h _ _ (beginsIn_append hhead hc) (hmore rest ts hrest hts)
  rwa [String.toList_append, List.append_assoc, List.append_assoc]

/-- A separator between two texts is read as one token, and ends the first of them. -/
theorem Spells.join {sep : String} {c : Char} (h : Spells follow text tokens)
    (hmore : Spells follow more later) (hhead : sep.toList.head? = some c) (hc : c ∈ follow)
    (hsep : ∀ {rest ts}, Tokenizes rest ts → Tokenizes (sep.toList ++ rest) (t :: ts)) :
    Spells follow (text ++ sep ++ more) (tokens ++ t :: later) := by
  intro rest ts hrest hts
  have hall := h _ _ (beginsIn_append hhead hc) (hsep (hmore rest ts hrest hts))
  simpa only [String.toList_append, List.append_assoc, List.cons_append] using hall

/-- A token that nothing can go on from, before others. -/
theorem Spells.cons (h : Spells follow text tokens) (ht : t.WellFormed)
    (hends : ∀ rest, EndsBefore t rest) : Spells follow (t.text ++ text) (t :: tokens) := by
  intro rest ts hrest hts
  have hall := (h rest ts hrest hts).cons_of_wellFormed ht (hends _)
  simpa only [String.toList_append, List.append_assoc, List.cons_append] using hall

/-- A mark that ends what is before it, and that anything may follow. -/
theorem Spells.close {m : Mark} {c : Char} (h : Spells follow text tokens)
    (hhead : m.text.toList.head? = some c) (hc : c ∈ follow)
    (hends : ∀ rest, EndsBefore (.mark m) rest) :
    Spells behind (text ++ m.text) (tokens ++ [.mark m]) := by
  have hmark : Spells behind m.text [.mark m] := fun _ _ _ hts => tokenizes_mark hends hts
  exact h.append hmark hhead hc

/-- Texts that a comma ends, with commas between them. -/
theorem Spells.intercalate {α : Type} {render : α → String} {split : α → List Token} {xs : List α}
    (hxs : ∀ x ∈ xs, Spells follow (render x) (split x)) (hcomma : ',' ∈ follow) :
    Spells follow (",".intercalate (xs.map render))
      ([Token.mark .comma].intercalate (xs.map split)) := by
  induction xs with
  | nil => exact fun _ _ _ hts => hts
  | cons x xs ih =>
    obtain ⟨hx, hxs⟩ := List.forall_mem_cons.mp hxs
    cases xs with
    | nil => simpa using hx
    | cons y ys =>
      have hmore := ih hxs
      rw [List.map_cons, List.map_cons] at hmore ⊢
      rw [String.intercalate_cons_cons, List.map_cons, List.map_cons, List.intercalate_cons_cons,
        List.append_assoc, List.singleton_append]
      exact hx.join hmore (c := ',') rfl hcomma (tokenizes_mark (m := .comma) fun _ => trivial)

theorem Spells.tokenizes (h : Spells follow text tokens) : Tokenizes text.toList tokens := by
  have hall := h [] [] beginsIn_nil (.done rfl)
  rwa [List.append_nil, List.append_nil] at hall

theorem exists_written {q : QualifiedName} (hq : q.Writable names) :
    ∃ n : WrittenName, n.name? names = some q ∧ n.token.WellFormed ∧ n.token.text = q.text := by
  obtain ⟨space, localName, _⟩ := q
  obtain ⟨pfx, rfl, hspace, hwell⟩ := hq
  refine ⟨⟨pfx, localName⟩, ?_, hwell, rfl⟩
  simp only [WrittenName.name?, hspace, Option.map_some]

/-- A name ends where no character of names comes next. -/
theorem spells_name {n : WrittenName} (hn : n.token.WellFormed)
    (hfollow : follow.any isNameChar = false) : Spells follow n.token.text [n.token] := by
  intro rest ts hrest hts
  exact hts.cons_of_wellFormed hn (hrest.stops hfollow)

theorem spells_token (ht : t.WellFormed) (hne : t ≠ .comparison .lt) :
    Spells delimiters t.text [t] := by
  intro rest ts hrest hts
  exact hts.cons_of_wellFormed ht (endsBefore_of_beginsIn hrest fun h => absurd h hne)

theorem exists_literal (hv : v.Writable names) :
    ∃ l : Literal, l.value? names = some v ∧ Spells delimiters v.text l.tokens := by
  cases v with
  | uri reference => exact ⟨.uri reference, rfl, spells_token (t := .uri reference) hv (by simp)⟩
  | boolean value =>
    refine ⟨.boolean value, rfl, ?_⟩
    have htext : (Value.boolean value).text = (Token.boolean value).text := by
      cases value <;> rfl
    rw [htext]
    exact spells_token (t := .boolean value) trivial (by simp)
  | decimal d =>
    have hnumber : Spells delimiters d.digits [.number d.digits] :=
      spells_token (t := .number d.digits) d.isNumeral_digits (by simp)
    have hread : decimal? d.negative d.digits = some (.decimal d) := by
      rw [decimal?, d.ofDigits_digits]
      rfl
    -- The sign is a token of its own.
    rw [Value.text, d.text_eq_digits]
    cases hnegative : d.negative with
    | false =>
      rw [hnegative] at hread
      refine ⟨.number d.digits, hread, ?_⟩
      rw [if_neg Bool.false_ne_true, String.empty_append]
      exact hnumber
    | true =>
      rw [hnegative] at hread
      exact ⟨.signed true d.digits, hread, hnumber.cons (t := .mark .minus) trivial fun _ => trivial⟩
  | string body => exact ⟨.string body, rfl, spells_token (t := .quoted body) hv (by simp)⟩
  | typed body datatype =>
    obtain ⟨n, hn, hwell, htext⟩ := exists_written hv.2
    have hparts : (Value.typed body datatype).text =
        (Token.quoted body).text ++ ((Token.mark .datatype).text ++ n.token.text) := by
      apply String.toList_inj.mp
      rw [htext]
      simp [Value.text, Token.text, Mark.text]
    refine ⟨.typed body n, ?_, ?_⟩
    · simp only [Literal.value?, hn, Option.map_some]
    · have hname : Spells delimiters n.token.text [n.token] :=
        spells_name hwell (by decide)
      have hmark := hname.cons (t := .mark .datatype) trivial fun _ => trivial
      rw [hparts]
      exact hmark.cons (t := .quoted body) hv.1 fun _ => trivial
  | tagged body language =>
    have hparts : (Value.tagged body language).text =
        (Token.quoted body).text ++ (Token.language language).text := by
      apply String.toList_inj.mp
      simp [Value.text, Token.text]
    have htag : Spells delimiters (Token.language language).text [.language language] :=
      spells_token (t := .language language) hv.2 (by simp)
    refine ⟨.tagged body language, rfl, ?_⟩
    rw [hparts]
    exact htag.cons (t := .quoted body) hv.1 fun _ => trivial

theorem exists_operands {vs : List Value} (hne : vs ≠ []) (hvs : ∀ v ∈ vs, v.Writable names) :
    ∃ (l : Literal) (ls : List Literal) (u : Value) (us : List Value), l.value? names = some u ∧ ls.mapM (Literal.value? names) = some us ∧
      vs = u :: us ∧ Spells delimiters (",".intercalate (vs.map Value.text))
        (l.tokens ++ Literal.later ls) := by
  induction vs with
  | nil => exact absurd rfl hne
  | cons v vs ih =>
    obtain ⟨hv, hvs⟩ := List.forall_mem_cons.mp hvs
    obtain ⟨l, hl, hspell⟩ := exists_literal hv
    cases vs with
    | nil =>
      refine ⟨l, [], v, [], hl, rfl, rfl, ?_⟩
      rw [Literal.later, List.flatMap_nil, List.append_nil]
      simpa using hspell
    | cons v' vs =>
      obtain ⟨l', ls, u, us, hl', hls, heq, hmore⟩ := ih (List.cons_ne_nil v' vs) hvs
      refine ⟨l, l' :: ls, v, u :: us, hl, ?_, congrArg (v :: ·) heq, ?_⟩
      · exact Literal.mapM_cons_eq_some_iff.mpr ⟨u, us, hl', hls, rfl⟩
      · rw [List.map_cons, List.map_cons, String.intercalate_cons_cons, ← List.map_cons]
        exact hspell.join hmore (c := ',') rfl (by decide) (tokenizes_mark (m := .comma) fun _ => trivial)

/-- The terms of a clause, if each by itself can be read from its text. -/
theorem exists_clause {ts : List Term} (hne : ts ≠ [])
    (hts : ∀ t ∈ ts, ∃ p : Phrase, p.term? names = some t ∧ Spells closers t.text p.tokens) :
    ∃ c : Clause, c.terms? names = some ts ∧ Spells closers (clauseText ts) c.tokens := by
  induction ts with
  | nil => exact absurd rfl hne
  | cons t ts ih =>
    obtain ⟨⟨p, hp, hspell⟩, hts⟩ := List.forall_mem_cons.mp hts
    cases ts with
    | nil =>
      refine ⟨⟨p, []⟩, Clause.terms?_eq_some_iff.mpr ⟨t, [], hp, rfl, rfl⟩, ?_⟩
      rw [Clause.tokens, Phrase.later, List.append_nil]
      simpa [clauseText, texts] using hspell
    | cons t' ts =>
      obtain ⟨⟨p', ps⟩, hc, hmore⟩ := ih (List.cons_ne_nil t' ts) hts
      obtain ⟨u, us, hp', hps, heq⟩ := Clause.terms?_eq_some_iff.mp hc
      have hlater := Phrase.terms?_cons_eq_some_iff.mpr ⟨u, us, hp', hps, heq⟩
      refine ⟨⟨p, p' :: ps⟩, Clause.terms?_eq_some_iff.mpr ⟨t, _, hp, hlater, rfl⟩, ?_⟩
      rw [clauseText, texts, texts, String.intercalate_cons_cons, ← texts]
      exact hspell.join hmore (c := ' ') rfl (by decide) (tokenizes_spaced_mark .conjunction)

theorem isUriChar_of_isNumeralChar {c : Char} (h : isNumeralChar c = true) :
    isUriChar c = true := by
  rcases Bool.or_eq_true_iff.mp h with hdigit | hpoint
  · exact isUriChar_of_isDigit hdigit
  · rw [beq_iff_eq.mp hpoint]
    decide

/-- A character of an operand that is no URI reference and no string. -/
def isPlainChar (c : Char) : Bool := isUriChar c && c != '='

theorem isPlainChar_of_isNumeralChar {c : Char} (h : isNumeralChar c = true) :
    isPlainChar c = true := by
  have hne : (c != '=') = true := by
    apply bne_iff_ne.mpr
    rintro rfl
    exact absurd h (by decide)
  rw [isPlainChar, isUriChar_of_isNumeralChar h, hne, Bool.true_and]

theorem isPlainChar_decimal (d : Decimal) : ∀ c ∈ d.text.toList, isPlainChar c = true := by
  rw [d.text_eq_digits, String.toList_append]
  refine List.forall_mem_append.mpr ⟨List.all_eq_true.mp (by split <;> decide), ?_⟩
  intro c hc
  exact isPlainChar_of_isNumeralChar (isNumeralChar_of_isNumeral d.isNumeral_digits c hc)

def operandOpeners : List Char := ['<', '"']

/-- The text of a value begins with a character that no URI reference holds, or is plain. -/
theorem opens_or_plain (v : Value) :
    (∃ c ∈ operandOpeners, v.text.toList.head? = some c) ∨
      ∀ c ∈ v.text.toList, isPlainChar c = true := by
  cases v with
  | uri reference => exact Or.inl ⟨'<', by decide, by simp [Value.text]⟩
  | boolean value => exact Or.inr (List.all_eq_true.mp (by cases value <;> decide))
  | decimal d => exact Or.inr (isPlainChar_decimal d)
  | string _ | typed _ _ | tagged _ _ => exact Or.inl ⟨'"', by decide, by simp [Value.text]⟩

theorem endsBefore_comparison {relation : Comparison} (hw : ∀ c ∈ w, isPlainChar c = true)
    (h : BeginsIn follow rest) (huri : follow.any isUriChar = false) (hgt : '>' ∉ follow) :
    EndsBefore (.comparison relation) (w ++ rest) := by
  have hplain : ∀ c ∈ w, isUriChar c = true := fun c hc => (Bool.and_eq_true_iff.mp (hw c hc)).1
  have hstops : Stops isUriChar rest := h.stops huri
  -- An equals sign is a character of URI references, so `rest` does not begin with one either.
  have hne : (w ++ rest).head? ≠ some '=' := by
    intro hhead
    cases w with
    | nil => exact absurd (hstops '=' hhead) (by decide)
    | cons c cs =>
      cases hhead
      exact absurd (hw '=' List.mem_cons_self) (by decide)
  have hne' : (w ++ rest).head? ≠ some '>' := by
    intro hhead
    cases w with
    | nil => exact h.head?_ne hgt hhead
    | cons c cs =>
      cases hhead
      exact absurd (hplain '>' List.mem_cons_self) (by decide)
  cases relation with
  | lt => exact ⟨hne, hne', uriBody?_append_eq_none hplain hstops (h.head?_ne hgt)⟩
  | gt => exact hne
  | eq | ne | le | ge => trivial

/-- No comparison goes on with the text of a value. -/
theorem endsBefore_operand {relation : Comparison} (hrest : BeginsIn closers rest) :
    EndsBefore (.comparison relation) (v.text.toList ++ rest) := by
  rcases opens_or_plain v with ⟨c, hc, hhead⟩ | hplain
  · exact endsBefore_comparison (w := []) nofun (beginsIn_append hhead hc) (by decide) (by decide)
  · exact endsBefore_comparison hplain hrest (by decide) (by decide)

theorem spells_comparison {relation : Comparison} {l : Literal}
    (h : Spells delimiters v.text l.tokens) :
    Spells closers (relation.text ++ v.text) (Condition.comparison relation l).tokens := by
  intro rest ts hrest hts
  have hoperand := h rest ts (beginsIn_delimiters hrest) hts
  have hall := hoperand.cons_of_wellFormed (t := .comparison relation) trivial
    (endsBefore_operand hrest)
  simpa only [Condition.tokens, Token.text, String.toList_append, List.append_assoc,
    List.cons_append] using hall

theorem spells_membership {l : Literal} {ls : List Literal}
    (h : Spells delimiters text (l.tokens ++ Literal.later ls)) :
    Spells closers (" in [" ++ text ++ "]") (Condition.membership l ls).tokens := by
  have hclose : Spells closers _ _ :=
    h.close (m := .closeBracket) (c := ']') rfl (by decide) fun _ => trivial
  have hlist := hclose.cons (t := .mark .openBracket) trivial fun _ => trivial
  intro rest ts hrest hts
  have hall := tokenizes_spaced_mark .membership (hlist rest ts hrest hts)
  simpa [Condition.tokens, Token.text, Mark.text] using hall

theorem spells_nested {c : Clause} (h : Spells closers text c.tokens) :
    Spells closers ("\x7b" ++ text ++ "\x7d") (Condition.nested c.first c.rest).tokens := by
  have hclose : Spells closers _ _ :=
    h.close (m := .closeBrace) (c := '}') rfl (by decide) fun _ => trivial
  have hblock := hclose.cons (t := .mark .openBrace) trivial fun _ => trivial
  simpa [Condition.tokens, Clause.tokens, Token.text, Mark.text, ← String.append_assoc] using hblock

/-- What a condition begins with. -/
def conditionHeads : List Char := [' ', '{', '=', '!', '<', '>']

theorem head?_comparison_mem (relation : Comparison) :
    relation.text.toList.head? ∈ conditionHeads.map some := by
  cases relation <;> decide

theorem exists_phrase_of_condition {property : QualifiedName} {condition : Condition} {t : Term}
    {c : Char} (hproperty : property.Writable names)
    (ht : condition.term? names property = some t) (h : Spells closers text condition.tokens)
    (hc : c ∈ conditionHeads) (hhead : text.toList.head? = some c) :
    ∃ p : Phrase, p.term? names = some t ∧ Spells closers (property.text ++ text) p.tokens := by
  obtain ⟨n, hn, hwell, htext⟩ := exists_written hproperty
  refine ⟨.mk n condition, Phrase.term?_eq_some_iff.mpr ⟨property, hn, ht⟩, ?_⟩
  have hname : Spells conditionHeads n.token.text [n.token] := spells_name hwell (by decide)
  have hall := hname.append h hhead hc
  rwa [htext] at hall

theorem exists_phrase {t : Term} (ht : t.Writable names) :
    ∃ p : Phrase, p.term? names = some t ∧ Spells closers t.text p.tokens := by
  induction ht with
  | @comparison property relation operand hproperty hoperand =>
    obtain ⟨l, hl, hspell⟩ := exists_literal hoperand
    obtain ⟨c, hc, hhead⟩ := List.mem_map.mp (head?_comparison_mem relation)
    have hterm : (Condition.comparison relation l).term? names property =
        some (.comparison property relation operand) :=
      Condition.term?_comparison_eq_some_iff.mpr ⟨operand, hl, rfl⟩
    rw [Term.text, String.append_assoc]
    refine exists_phrase_of_condition hproperty hterm (spells_comparison hspell) hc ?_
    rw [String.toList_append, List.head?_append, ← hhead, Option.some_or]
  | @membership property operands hproperty hne hoperands =>
    obtain ⟨l, ls, u, us, hl, hls, rfl, hspell⟩ := exists_operands hne hoperands
    have hterm : (Condition.membership l ls).term? names property =
        some (.membership property (u :: us)) :=
      Condition.term?_membership_eq_some_iff.mpr ⟨u, us, hl, hls, rfl⟩
    have htext : (Term.membership property (u :: us)).text =
        property.text ++ (" in [" ++ ",".intercalate ((u :: us).map Value.text) ++ "]") := by
      simp only [Term.text, String.append_assoc]
    rw [htext]
    exact exists_phrase_of_condition (c := ' ') hproperty hterm (spells_membership hspell)
      (by decide) (by simp)
  | @nested property terms hproperty hne hterms ih =>
    obtain ⟨c, hc, hspell⟩ := exists_clause hne ih
    obtain ⟨u, us, hu, hus, rfl⟩ := Clause.terms?_eq_some_iff.mp hc
    have hterm : (Condition.nested c.first c.rest).term? names property =
        some (.nested property (u :: us)) :=
      Condition.term?_nested_eq_some_iff.mpr ⟨u, us, hu, hus, rfl⟩
    have htext : (Term.nested property (u :: us)).text =
        property.text ++ ("\x7b" ++ clauseText (u :: us) ++ "\x7d") := by
      simp only [Term.text, clauseText, String.append_assoc]
    rw [htext]
    exact exists_phrase_of_condition (c := '{') hproperty hterm (spells_nested hspell)
      (by decide) (by simp)

/-- A clause that can be written is read back from its text as it was, and every clause that is
read can be written. -/
theorem parse_clauseText (names : PrefixMap) (ts : List Term) :
    (WritableClause names ts → parse names (clauseText ts) = .ok ts) ∧
    ∀ text, parse names text = .ok ts → WritableClause names ts := by
  refine ⟨?_, fun text h => writableClause_of_parse h⟩
  intro h
  obtain ⟨c, hc, hspell⟩ := exists_clause h.nonempty fun t ht => exists_phrase (h.terms t ht)
  exact parse_eq_ok_iff.mpr ⟨c.tokens, tokenize_eq_ok_iff.mpr hspell.tokenizes, c, rfl, hc⟩

theorem parse_clauseText_below_zero :
    parse (PrefixMap.empty.insert "p" "http://e/") "p:x\x7bp:y<-0.5\x7d" =
      .ok [.nested ⟨"http://e/", "x", some "p"⟩ [.comparison ⟨"http://e/", "y", some "p"⟩ .lt
        (.decimal ⟨true, 5, 1, by decide, by decide⟩)]] := by
  have hname : ∀ l ∈ ["x", "y"], QualifiedName.Writable (PrefixMap.empty.insert "p" "http://e/")
      ⟨"http://e/", l, some "p"⟩ := by
    have hpfx : Token.IsWord "p".toList := by decide +kernel
    have hlocal : ∀ l ∈ ["x", "y"], Token.IsLocalName l.toList := by decide +kernel
    intro l hl
    exact ⟨"p", rfl, rfl, Or.inr hpfx, hlocal l hl⟩
  have hterm : Writable (PrefixMap.empty.insert "p" "http://e/")
      (.nested ⟨"http://e/", "x", some "p"⟩ [.comparison ⟨"http://e/", "y", some "p"⟩ .lt
        (.decimal ⟨true, 5, 1, by decide, by decide⟩)]) := by
    refine .nested (hname "x" (by decide)) (List.cons_ne_nil _ _) ?_
    exact List.forall_mem_singleton.mpr (.comparison (hname "y" (by decide)) trivial)
  exact (parse_clauseText _ _).1 ⟨List.cons_ne_nil _ _, List.forall_mem_singleton.mpr hterm⟩

end ResourceQuery.Term
