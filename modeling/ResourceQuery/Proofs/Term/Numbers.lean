import ResourceQuery.Proofs.Clause.FirstFault
import ResourceQuery.Proofs.Decimal.Exactness
import ResourceQuery.Proofs.Term.Derivation
import ResourceQuery.Proofs.Term.Operands

/-!
# Numbers as operands

Wherever a where clause has a number for an operand, in a comparison or a list and in blocks at any
depth, the number is read as exactly what its sign and digits say if they fit, and is an error at
the digits if they do not.
-/

namespace ResourceQuery.Term

set_option autoImplicit false

open Decimal Token

variable {names : PrefixMap} {text : String} {d : Draft} {slot : Slot} {ts : List Token}
  {earlier later : List Span}

/-- What the tokens of a clause make of its beginning. -/
def Draft.after (names : PrefixMap) (ts : List Token) : Except Problem Draft :=
  ts.foldlM (Draft.step names) ⟨[], [], .term⟩

theorem Draft.after_append (h : after names ts = .ok d) (us : List Token) :
    after names (ts ++ us) = us.foldlM (step names) d := by
  unfold after at h ⊢
  rw [List.foldlM_append, h]
  rfl

/-- A place in a text where an operand is to come and a number does, with a sign or without. -/
structure NumberOperand (names : PrefixMap) (text : String) where
  before : List Span
  /-- What the tokens before the operand lead to. -/
  draft : Draft
  slot : Slot
  /-- Whether there is a sign, and whether it is minus. -/
  sign? : Option Bool
  signs : List Span
  number : Span
  whole : List Char
  fraction : List Char
  later : List Span
  spans : (Lexer.ofString text).spans = before ++ signs ++ number :: later
  reached : Draft.after names (before.map Span.token) = .ok draft
  expects : draft.expects = .operand slot
  token_signs : signs.map Span.token = (sign?.map sign).toList
  token_number : number.token = .number (String.ofList (numeral whole fraction))
  isDigit_whole : ∀ c ∈ whole, c.isDigit = true
  isDigit_fraction : ∀ c ∈ fraction, c.isDigit = true

/-- A number that follows a sign is placed as one that does not, but for the sign. -/
theorem exists_after_sign (names : PrefixMap) (sign? : Option Bool)
    (hexpects : d.expects = .operand slot) :
    ∃ d', (sign?.map sign).toList.foldlM (Draft.step names) d = .ok d' ∧
      ∀ digits, d'.step names (.number digits) = d.placeNumber slot (sign?.getD false) digits := by
  obtain ⟨enclosing, terms, expects⟩ := d
  cases hexpects
  cases sign? with
  | none => exact ⟨_, rfl, fun _ => rfl⟩
  | some negative =>
    have hplace : ∀ v, Draft.place ⟨enclosing, terms, .magnitude slot negative⟩ v slot =
        Draft.place ⟨enclosing, terms, .operand slot⟩ v slot := by
      intro v
      cases slot <;> rfl
    refine ⟨⟨enclosing, terms, .magnitude slot negative⟩, ?_, ?_⟩
    · cases negative <;> rfl
    · intro digits
      simp only [Draft.step, Draft.placeNumber, hplace, Option.getD_some]

/-- What is made of a text is what is made of the draft that its first tokens lead to. -/
theorem parse_eq_run_after (hspans : (Lexer.ofString text).spans = earlier ++ later)
    (h : Draft.after names (earlier.map Span.token) = .ok d) :
    Term.parse names text =
      (grammar names).run text.toList (Lexer.ofString text).ending d later := by
  have hfold : (earlier.map (Span.lexeme text.toList)).foldlM (grammar names).step
      (grammar names).start = .ok d := by
    rw [Draft.after, List.foldlM_map] at h
    rw [List.foldlM_map]
    exact h
  rw [Term.parse, Grammar.parse_eq_run, hspans]
  exact Grammar.run_append hfold

namespace NumberOperand

variable (o : NumberOperand names text)

/-- Whether the number is negative, which zero can be too. -/
def negative : Bool := o.sign?.getD false

def digits : String := String.ofList (numeral o.whole o.fraction)

/-- The spans up to the number, and the number. -/
def read : List Span := o.before ++ o.signs ++ [o.number]

theorem spans_eq_read : (Lexer.ofString text).spans = o.read ++ o.later := by
  rw [o.spans, read, List.append_assoc _ [o.number], List.singleton_append]

theorem stands : o.number.Stands text.toList := by
  apply Lexer.stands_of_mem_spans (l := Lexer.ofString text)
  rw [o.spans]
  exact List.mem_append_right _ List.mem_cons_self

/-- Up to its sign the operand is taken, and the digits then decide. -/
theorem exists_before_number :
    ∃ d, Draft.after names ((o.before ++ o.signs).map Span.token) = .ok d ∧
      d.step names o.number.token = o.draft.placeNumber o.slot o.negative o.digits := by
  obtain ⟨d, hd, hnumber⟩ := exists_after_sign names o.sign? o.expects
  refine ⟨d, ?_, ?_⟩
  · rw [List.map_append, Draft.after_append o.reached, o.token_signs, hd]
  · rw [o.token_number]
    exact hnumber _

/-- Digits that fit are placed as the operand that they are. -/
theorem exists_placed (h : Fits o.whole o.fraction) :
    ∃ v : Decimal, v.Exact o.negative o.whole o.fraction ∧
      Draft.after names (o.read.map Span.token) = .ok (o.draft.place (.decimal v) o.slot) := by
  obtain ⟨v, hv, hexact⟩ := exists_exact_of_fits o.negative o.isDigit_whole
    o.isDigit_fraction h
  obtain ⟨d, hd, hstep⟩ := o.exists_before_number
  refine ⟨v, hexact, ?_⟩
  have hplaced : o.draft.placeNumber o.slot o.negative o.digits =
      .ok (o.draft.place (.decimal v) o.slot) := by
    rw [Draft.placeNumber, digits, String.toList_ofList, hv]
  rw [read, List.map_append, Draft.after_append hd, List.map_singleton, List.foldlM_cons, hstep,
    hplaced]
  rfl

/-- Digits that do not fit are the error of the clause, and it lies at them. -/
theorem exists_misfit (h : ¬ Fits o.whole o.fraction) :
    ∃ reason, Term.parse names text =
      .error ⟨.misfit o.negative o.digits reason, o.digits, o.number.start⟩ := by
  obtain ⟨reason, hreason⟩ := exists_misfit_of_not_fits o.negative o.isDigit_whole h
  obtain ⟨d, hd, hstep⟩ := o.exists_before_number
  have hmisfit : (grammar names).step d (o.number.lexeme text.toList) =
      .error (.misfit o.negative o.digits reason) := by
    refine hstep.trans ?_
    rw [Draft.placeNumber, digits, String.toList_ofList, hreason]
  have hfragment : (o.number.parser text.toList).fragment = o.digits := by
    have hslice := o.stands.slice_eq
    rw [o.token_number] at hslice
    exact String.toList_inj.mp (String.toList_ofList.trans hslice)
  refine ⟨reason, ?_⟩
  rw [parse_eq_run_after o.spans hd, Grammar.run, hmisfit]
  simp only [Parser.locate, hfragment]
  rfl

/-- Behind a number that has been placed, only what comes later can be an error. -/
theorem start_lt_of_error {x : ParseError}
    (h : Draft.after names (o.read.map Span.token) = .ok d)
    (hx : Term.parse names text = .error x) : o.number.start < x.offset := by
  rw [parse_eq_run_after o.spans_eq_read h] at hx
  obtain ⟨before, after, d', hlater, _, hrefuses⟩ := Grammar.exists_refuses_of_run hx
  have hspans : (Lexer.ofString text).spans = (o.read ++ before) ++ after := by
    rw [o.spans_eq_read, hlater, List.append_assoc]
  apply (isLocal names).start_lt_of_refuses hspans hrefuses
  exact List.mem_append_left _ (List.mem_append_right _ List.mem_cons_self)

end NumberOperand

/-- A number for an operand is accepted exactly if its digits fit. It is then an operand of the
clause, right after those before it, and it is exactly the number that is written; or else the
clause fails at its digits, behind the sign. -/
theorem number_operand_exact (o : NumberOperand names text) :
    (Fits o.whole o.fraction ↔ ∃ d, Draft.after names (o.read.map Span.token) = .ok d) ∧
    (Fits o.whole o.fraction → ∃ v : Decimal, v.Exact o.negative o.whole o.fraction ∧
      Draft.after names (o.read.map Span.token) = .ok (o.draft.place (.decimal v) o.slot) ∧
      (∀ x, Term.parse names text = .error x → o.number.start < x.offset) ∧
      ∀ terms, Term.parse names text = .ok terms →
        o.draft.operands ++ [.decimal v] <+: operandsOf terms) ∧
    (¬ Fits o.whole o.fraction → ∃ x reason, Term.parse names text = .error x ∧
      x.kind = .lexical ∧ x.cause = some (.misfit reason) ∧
      x.fragment = String.ofList (numeral o.whole o.fraction) ∧ x.offset = o.number.start) := by
  refine ⟨⟨?_, ?_⟩, ?_, ?_⟩
  · intro hfits
    obtain ⟨v, _, hplaced⟩ := o.exists_placed hfits
    exact ⟨_, hplaced⟩
  · rintro ⟨d, hd⟩
    by_contra hmisfit
    obtain ⟨reason, hx⟩ := o.exists_misfit hmisfit
    exact Nat.lt_irrefl _ (o.start_lt_of_error hd hx)
  · intro hfits
    obtain ⟨v, hexact, hplaced⟩ := o.exists_placed hfits
    refine ⟨v, hexact, hplaced, fun x hx => o.start_lt_of_error hplaced hx, ?_⟩
    intro terms hterms
    have hexpects : o.draft.expects.operands = o.slot.operands := by
      rw [o.expects]
      rfl
    rw [parse_eq_run_after o.spans_eq_read hplaced] at hterms
    rw [← Draft.operands_place hexpects]
    exact prefix_of_run hterms
  · intro hmisfit
    obtain ⟨reason, hx⟩ := o.exists_misfit hmisfit
    exact ⟨_, reason, hx, rfl, rfl, rfl, rfl⟩

/-- Zeros in front and at the end of a number in a list, and a number that is one too large. -/
theorem number_operand_exact_in_list :
    let names := PrefixMap.empty.insert "p" "http://e/"
    (∃ terms v, Term.parse names "p:x\x7bp:y in [true, -007.50]\x7d" = .ok terms ∧
      [.boolean true, .decimal v] <+: operandsOf terms ∧ v.value = -15 / 2 ∧ v.text = "-7.50") ∧
    ∃ x reason, Term.parse names "p:a=+79228162514264337593543950336" = .error x ∧
      x.cause = some (.misfit reason) ∧ x.offset = 5 := by
  intro names
  refine ⟨?_, ?_⟩
  · have haccepted : (Term.parse names "p:x\x7bp:y in [true, -007.50]\x7d").map (fun _ => ()) =
        .ok () := by decide +kernel
    let o : NumberOperand names "p:x\x7bp:y in [true, -007.50]\x7d" :=
      { before := [⟨.prefixed "p" "x", 0, 3⟩, ⟨.mark .openBrace, 3, 4⟩, ⟨.prefixed "p" "y", 4, 7⟩,
          ⟨.mark .membership, 8, 10⟩, ⟨.mark .openBracket, 11, 12⟩, ⟨.boolean true, 12, 16⟩,
          ⟨.mark .comma, 16, 17⟩]
        draft := ⟨[(⟨"http://e/", "x", some "p"⟩, [])], [],
          .operand (.membership ⟨"http://e/", "y", some "p"⟩ [.boolean true])⟩
        slot := .membership ⟨"http://e/", "y", some "p"⟩ [.boolean true]
        sign? := some true
        signs := [⟨.mark .minus, 18, 19⟩]
        number := ⟨.number "007.50", 19, 25⟩
        whole := "007".toList
        fraction := "50".toList
        later := [⟨.mark .closeBracket, 25, 26⟩, ⟨.mark .closeBrace, 26, 27⟩]
        spans := by decide +kernel
        reached := by rfl
        expects := rfl
        token_signs := rfl
        token_number := by decide +kernel
        isDigit_whole := List.all_eq_true.mp (by decide +kernel)
        isDigit_fraction := List.all_eq_true.mp (by decide +kernel) }
    obtain ⟨v, hexact, _, _, hoperand⟩ := (number_operand_exact o).2.1 (by decide +kernel)
    obtain ⟨terms, hterms, _⟩ := map_eq_ok_iff.mp haccepted
    refine ⟨terms, v, hterms, hoperand terms hterms, ?_, ?_⟩
    · have hdigits : digitsValue (o.whole ++ o.fraction) = 750 := by decide +kernel
      have hscale : o.fraction.length = 2 := by decide +kernel
      have hnegative : o.negative = true := rfl
      rw [hexact.value, hdigits, hscale, hnegative]
      norm_num
    · rw [hexact.text]
      decide +kernel
  · let o : NumberOperand names "p:a=+79228162514264337593543950336" :=
      { before := [⟨.prefixed "p" "a", 0, 3⟩, ⟨.comparison .eq, 3, 4⟩]
        draft := ⟨[], [], .operand (.comparison ⟨"http://e/", "a", some "p"⟩ .eq)⟩
        slot := .comparison ⟨"http://e/", "a", some "p"⟩ .eq
        sign? := some false
        signs := [⟨.mark .plus, 4, 5⟩]
        number := ⟨.number "79228162514264337593543950336", 5, 34⟩
        whole := "79228162514264337593543950336".toList
        fraction := []
        later := []
        spans := by decide +kernel
        reached := by rfl
        expects := rfl
        token_signs := rfl
        token_number := by decide +kernel
        isDigit_whole := List.all_eq_true.mp (by decide +kernel)
        isDigit_fraction := List.all_eq_true.mp (by decide +kernel) }
    obtain ⟨x, reason, hx, _, hcause, _, hoffset⟩ := (number_operand_exact o).2.2 (by decide +kernel)
    exact ⟨x, reason, hx, hcause, hoffset⟩

end ResourceQuery.Term
