import ResourceQuery.Proofs.Clause.FirstFault
import ResourceQuery.Proofs.Lexer.Positions

/-!
# Errors lie in the text

The place of an error is that of the lexer, or that of a sort key which has been taken before, so
it lies between where the lexer stood when the parser began and where it stands when the parser
ends. One clause after another is read from where the one before it has ended, with an error or
without one, so the errors of a run ascend, and all of them lie in the text.

In the first clause of a text the lexer stands at a token or at the end whenever the grammar
refuses something. After a fault it can stand before a character that is no token, with nothing
read.
-/

namespace ResourceQuery

set_option autoImplicit false

variable {σ α : Type} {g : Grammar σ α} {s : σ} {text : List Char} {low low' high high' : Nat}
  {fragment : String} {offset : Nat} {p : Parser} {problem : Problem} {names : PrefixMap}
  {clause : Clause} {clauses : List Clause} {x : ParseError}

/-- The fragment stands in the text at the offset, which is between the bounds. -/
structure Within (text : List Char) (low high : Nat) (fragment : String) (offset : Nat) :
    Prop where
  stands : fragment.toList <+: text.drop offset
  low_le : low ≤ offset
  le_high : offset ≤ high

theorem Within.mono (h : Within text low high fragment offset) (hlow : low' ≤ low)
    (hhigh : high ≤ high') : Within text low' high' fragment offset :=
  ⟨h.stands, Nat.le_trans hlow h.low_le, Nat.le_trans h.le_high hhigh⟩

namespace Parser

theorem within_slice {stop : Nat} (hlow : low ≤ p.offset) :
    Within p.lexer.text low p.offset (p.lexer.slice p.offset stop) p.offset :=
  ⟨Lexer.toList_slice_prefix, hlow, Nat.le_refl _⟩

theorem within_locate (hlow : low ≤ p.offset)
    (hkey : ∀ key offset, problem = .undirected key offset →
      Within p.lexer.text low p.offset key offset) :
    Within p.lexer.text low p.offset (p.locate problem).fragment (p.locate problem).offset := by
  rcases p.locate_cases problem with ⟨key, offset, hproblem, hlocate⟩ | ⟨stop, _, hlocate⟩
  · rw [hlocate]
    exact hkey key offset hproblem
  · rw [hlocate]
    exact within_slice hlow

theorem within_of_next_error {l l' : Lexer} {e : LexError} (h : l.next = (.error e, l'))
    (hlow : low ≤ l'.tokenStart) :
    Within l.text low l'.tokenStart e.toParseError.fragment e.toParseError.offset := by
  obtain ⟨_, _, _, _, _, _, hfragment, hoffset, rfl⟩ := Lexer.place_of_next_error h
  simp only [LexError.toParseError, hfragment, hoffset]
  exact ⟨Lexer.toList_slice_prefix, hlow, Nat.le_refl _⟩

/-- What holds of a parser that has read from `p` on, with an error or without. -/
structure Halts (low : Nat) (p : Parser) (result : Except ParseError α × Parser) : Prop where
  placed : result.2.lexer.Placed
  text_eq : result.2.lexer.text = p.lexer.text
  offset_le : p.offset ≤ result.2.offset
  error : ∀ x, result.1 = .error x →
    Within p.lexer.text low result.2.offset x.fragment x.offset

theorem halts_readFrom {holds : (String → Nat → Prop) → σ → Prop} (hg : g.Tracks holds)
    (hp : p.lexer.Placed) (hlow : low ≤ p.offset)
    (hs : holds (Within p.lexer.text low p.offset) s) : Halts low p (p.readFrom g s) := by
  induction s, p using readFrom.induct g with
  | case1 s l =>
    rw [readFrom]
    refine ⟨hp, rfl, Nat.le_refl _, ?_⟩
    intro x hx
    cases hfinish : g.finish s with
    | ok a =>
      rw [hfinish] at hx
      cases hx
    | error problem =>
      rw [hfinish] at hx
      cases hx
      apply within_locate hlow
      rintro key offset rfl
      exact hg.finish_error hs hfinish
  | case2 s l t p problem hstep =>
    rw [readFrom_of_step_error hstep]
    refine ⟨hp, rfl, Nat.le_refl _, ?_⟩
    rintro x ⟨⟩
    apply within_locate hlow
    rintro key offset rfl
    exact hg.step_error hs hstep
  | case3 s l t p s' hstep e l' hnext =>
    rw [readFrom_of_next_error hstep hnext]
    have hle : l.tokenStart ≤ l'.tokenStart := Lexer.tokenStart_le_of_next hnext hp
    refine ⟨Lexer.placed_of_next hnext hp, (Lexer.tokenStart_of_next hnext).1, hle, ?_⟩
    rintro x ⟨⟩
    exact within_of_next_error hnext (Nat.le_trans hlow hle)
  | case4 s l t p s' hstep current l' hnext ih =>
    rw [readFrom_of_step_ok hstep (ofLexer_of_next_ok hnext)]
    have htext : l'.text = l.text := (Lexer.tokenStart_of_next hnext).1
    have hle : l.tokenStart ≤ l'.tokenStart := Lexer.tokenStart_le_of_next hnext hp
    -- the bound moves on with the lexer, and the places that are held stay below it
    have hs' : holds (Within l'.text low l'.tokenStart) s' := by
      rw [htext]
      have hgrow : ∀ key offset, Within l.text low l.tokenStart key offset →
          Within l.text low l'.tokenStart key offset :=
        fun _ _ h => h.mono (Nat.le_refl low) hle
      have hplace : Within l.text low l.tokenStart (Parser.mk l (some t)).fragment l.tokenStart :=
        within_slice (p := ⟨l, some t⟩) hlow
      exact hg.mono hgrow (hg.step hs hplace hstep)
    have hlater := ih (Lexer.placed_of_next hnext hp) (Nat.le_trans hlow hle) hs'
    refine ⟨hlater.placed, hlater.text_eq.trans htext, Nat.le_trans hle hlater.offset_le, ?_⟩
    intro x hx
    have hwithin := hlater.error x hx
    exact htext ▸ hwithin

end Parser

theorem Clause.halts_read (hp : p.lexer.Placed) :
    Parser.Halts p.offset p (clause.read names p) := by
  obtain ⟨σ, α, g, f, hg, _, hread⟩ := clause.exists_grammar names
  obtain ⟨holds, htracks⟩ := hg.tracks
  have hhalts : Parser.Halts p.offset p (p.read g) :=
    Parser.halts_readFrom htracks hp (Nat.le_refl _) (htracks.start _)
  rw [hread]
  refine ⟨hhalts.placed, hhalts.text_eq, hhalts.offset_le, ?_⟩
  intro x hx
  apply hhalts.error
  rwa [Prod.map_fst, map_eq_error_iff] at hx

/-- The errors of a parser that reads clauses one after another and goes on after each error. -/
def Parser.errors (names : PrefixMap) : List Clause → Parser → List ParseError
  | [], _ => []
  | clause :: clauses, p =>
    match clause.read names p with
    | (.error x, q) => x :: errors names clauses q
    | (.ok _, q) => errors names clauses q

/-- The errors of a run: some tokens of a text are skipped, and a parser that is built then reads
clauses. -/
def runErrors (names : PrefixMap) (text : String) (skipped : Nat) (clauses : List Clause) :
    List ParseError :=
  match Parser.ofLexer ((Lexer.ofString text).skip skipped) with
  | .error x => [x]
  | .ok p => p.errors names clauses

theorem Parser.errors_of_error {q : Parser} (h : clause.read names p = (.error x, q)) :
    p.errors names (clause :: clauses) = x :: q.errors names clauses := by
  rw [errors, h]

theorem Parser.errors_of_ok {q : Parser} {tree : Tree} (h : clause.read names p = (.ok tree, q)) :
    p.errors names (clause :: clauses) = q.errors names clauses := by
  rw [errors, h]

/-- The errors ascend from the place where the parser begins. -/
theorem Parser.errors_ascend (names : PrefixMap) (clauses : List Clause) (hp : p.lexer.Placed) :
    (∀ x ∈ p.errors names clauses,
      Within p.lexer.text p.offset p.lexer.text.length x.fragment x.offset) ∧
    (p.errors names clauses).Pairwise fun x y => x.offset ≤ y.offset := by
  induction clauses generalizing p with
  | nil => exact ⟨nofun, .nil⟩
  | cons clause clauses ih =>
    have hhalts : Halts p.offset p (clause.read names p) := Clause.halts_read hp
    -- the next clause begins where this one halts, which is no earlier than its error
    obtain ⟨hlater, hascend⟩ := ih hhalts.placed
    have hend : (clause.read names p).2.offset ≤ p.lexer.text.length := by
      rw [← hhalts.text_eq]
      exact hhalts.placed.tokenStart_le
    rw [hhalts.text_eq] at hlater
    have hlater' : ∀ y ∈ (clause.read names p).2.errors names clauses,
        Within p.lexer.text p.offset p.lexer.text.length y.fragment y.offset :=
      fun y hy => (hlater y hy).mono hhalts.offset_le (Nat.le_refl _)
    match hread : clause.read names p with
    | (.ok tree, q) =>
      rw [hread] at hlater' hascend
      rw [errors_of_ok hread]
      exact ⟨hlater', hascend⟩
    | (.error x, q) =>
      rw [hread] at hhalts hlater hlater' hascend hend
      have hx : Within p.lexer.text p.offset q.offset x.fragment x.offset := hhalts.error x rfl
      rw [errors_of_error hread]
      refine ⟨List.forall_mem_cons.mpr ⟨hx.mono (Nat.le_refl _) hend, hlater'⟩, ?_⟩
      refine List.pairwise_cons.mpr ⟨?_, hascend⟩
      intro y hy
      exact Nat.le_trans hx.le_high (hlater y hy).low_le

/-- The fragment of the error stands in the text, at the offset of the error. -/
structure ParseError.LiesIn (text : String) (x : ParseError) : Prop where
  offset_le : x.offset ≤ text.length
  stands : x.fragment.toList <+: text.toList.drop x.offset

theorem Within.liesIn {text : String}
    (h : Within text.toList low text.toList.length x.fragment x.offset) : x.LiesIn text :=
  ⟨h.le_high, h.stands⟩

theorem runErrors_ascend (names : PrefixMap) (text : String) (skipped : Nat)
    (clauses : List Clause) :
    (∀ x ∈ runErrors names text skipped clauses, x.LiesIn text) ∧
    (runErrors names text skipped clauses).Pairwise fun x y => x.offset ≤ y.offset := by
  obtain ⟨hplaced, htext⟩ := Lexer.placed_skip skipped (Lexer.placed_ofString text)
  have htext' : ((Lexer.ofString text).skip skipped).text = text.toList := htext
  unfold runErrors
  match hnext : ((Lexer.ofString text).skip skipped).next with
  | (.error e, l') =>
    have hlater := Lexer.placed_of_next hnext hplaced
    have hsame := (Lexer.tokenStart_of_next hnext).1
    have hin : Within text.toList 0 l'.tokenStart e.toParseError.fragment e.toParseError.offset :=
      htext' ▸ Parser.within_of_next_error hnext (Nat.zero_le _)
    have hle : l'.tokenStart ≤ text.toList.length := by
      rw [← htext', ← hsame]
      exact hlater.tokenStart_le
    rw [Parser.ofLexer_of_next_error hnext]
    refine ⟨?_, List.pairwise_singleton _ _⟩
    intro x hx
    obtain rfl := List.mem_singleton.mp hx
    exact (hin.mono (Nat.le_refl _) hle).liesIn
  | (.ok current, l') =>
    have hlater := Lexer.placed_of_next hnext hplaced
    have hsame : l'.text = text.toList := (Lexer.tokenStart_of_next hnext).1.trans htext'
    obtain ⟨hin, hascend⟩ := Parser.errors_ascend (p := ⟨l', current⟩) names clauses hlater
    rw [Parser.ofLexer_of_next_ok hnext]
    refine ⟨?_, hascend⟩
    intro x hx
    have hwithin := hin x hx
    simp only [hsame] at hwithin
    exact hwithin.liesIn

/-- A fault that nothing has been read of is met by each clause anew. -/
example : (runErrors .empty "\"x\" ^" 0 [.searchTerms, .select, .searchTerms]).map
    (fun x => (x.fragment, x.offset)) = [("^", 4), ("", 4), ("^", 4)] := by
  decide +kernel

/-- The fragment is empty at the end of the text and nowhere else. -/
def EmptyAtEnd (text : List Char) (fragment : String) (offset : Nat) : Prop :=
  fragment = "" ↔ offset = text.length

theorem Parser.emptyAtEnd_locate
    (hplace : p.offset = p.lexer.text.length ∨
      p.offset < p.lexer.position ∧ p.lexer.position ≤ p.lexer.text.length)
    (hkey : ∀ key offset, problem = .undirected key offset → EmptyAtEnd p.lexer.text key offset) :
    EmptyAtEnd p.lexer.text (p.locate problem).fragment (p.locate problem).offset := by
  rcases p.locate_cases problem with ⟨key, offset, hproblem, hlocate⟩ | ⟨stop, hstop, hlocate⟩
  · rw [hlocate]
    exact hkey key offset hproblem
  · rw [hlocate]
    simp only [EmptyAtEnd, Lexer.slice_eq_empty_iff]
    omega

theorem Grammar.Regular.emptyAtEnd (hg : g.Regular) {text : String}
    (h : g.parse text = .error x) : EmptyAtEnd text.toList x.fragment x.offset := by
  rw [parse_eq_run] at h
  obtain ⟨before, after, s', hspans, hfold, hrefuses⟩ := exists_refuses_of_run h
  have hspan : ∀ span ∈ before ++ after, span.Stands text.toList := by
    rw [← hspans]
    exact fun span hspan => Lexer.stands_of_mem_spans hspan
  obtain ⟨holds, htracks⟩ := hg.tracks
  have hholds : holds (EmptyAtEnd text.toList) s' := by
    apply htracks.foldlM (htracks.start _) _ hfold
    intro y hy
    obtain ⟨span, hmem, rfl⟩ := List.mem_map.mp hy
    have hstands := hspan span (List.mem_append_left _ hmem)
    have hlt := hstands.start_lt
    have hle := hstands.stop_le
    simp only [Span.lexeme, Parser.lexeme, Parser.fragment, Parser.offset, Span.parser, EmptyAtEnd,
      Lexer.slice_eq_empty_iff]
    omega
  cases hrefuses with
  | @fault e hending =>
    obtain ⟨hfragment, hoffset⟩ := Lexer.of_ending_error hending
    exact iff_of_false hfragment (Nat.ne_of_lt hoffset)
  | @finish l problem hending hfinish =>
    have hl := Lexer.ending_eq_ok (l := Lexer.ofString text) (Nat.zero_le _) hending
    have htext : l.text = text.toList := congrArg Lexer.text hl
    have hend : (Parser.mk l none).offset = l.text.length := by
      rw [hl]
      rfl
    rw [← htext] at hholds ⊢
    apply Parser.emptyAtEnd_locate (p := ⟨l, none⟩) (Or.inl hend)
    rintro key offset rfl
    exact htracks.finish_error hholds hfinish
  | @step span spans problem hstep =>
    have hstands := hspan span (List.mem_append_right _ List.mem_cons_self)
    apply Parser.emptyAtEnd_locate (p := span.parser text.toList)
      (Or.inr ⟨hstands.start_lt, hstands.stop_le⟩)
    rintro key offset rfl
    exact htracks.step_error hholds hstep

theorem Clause.parse_eq_read (names : PrefixMap) (clause : Clause) (text : String) :
    clause.parse names text =
      match Parser.ofLexer (.ofString text) with
      | .error x => .error x
      | .ok p => (clause.read names p).1 := by
  obtain ⟨σ, α, g, f, _, hparse, hread⟩ := clause.exists_grammar names
  rw [hparse, Grammar.parse]
  cases Parser.ofLexer (.ofString text) with
  | error x => rfl
  | ok p =>
    simp only [hread]
    rfl

/-- Every error of a run lies in the text and none lies before an earlier one, and an error of the
first clause of a text has an empty fragment if it lies at the end and at no other place. -/
theorem Clause.errors_lie_in_text (names : PrefixMap) (text : String) :
    (∀ skipped clauses, (∀ x ∈ runErrors names text skipped clauses, x.LiesIn text) ∧
      (runErrors names text skipped clauses).Pairwise fun x y => x.offset ≤ y.offset) ∧
    ∀ clause x, Clause.parse names clause text = .error x →
      x.LiesIn text ∧ (x.fragment = "" ↔ x.offset = text.length) := by
  refine ⟨runErrors_ascend names text, ?_⟩
  intro clause x h
  refine ⟨?_, ?_⟩
  · have hall := (runErrors_ascend names text 0 [clause]).1
    apply hall
    have hparse := clause.parse_eq_read names text
    unfold runErrors
    rw [Lexer.skip]
    cases hp : Parser.ofLexer (.ofString text) with
    | error y =>
      simp only [hp] at hparse
      rw [hparse] at h
      cases h
      exact List.mem_singleton_self _
    | ok p =>
      simp only [hp] at hparse
      rw [hparse] at h
      simp only
      rw [Parser.errors_of_error (Prod.ext h rfl)]
      exact List.mem_cons_self
  · obtain ⟨σ, α, g, f, hg, hparse, _⟩ := clause.exists_grammar names
    rw [hparse, map_eq_error_iff] at h
    exact hg.emptyAtEnd h

theorem Clause.errors_lie_in_text_undirected :
    let names := PrefixMap.empty.insert "p" "http://e/"
    let text := "+p:a\x7b-p:b,p:c\x7d"
    let x : ParseError := ⟨.undirected "p:c" 10, "p:c", 10⟩
    Clause.parse names .orderBy text = .error x ∧
      x.LiesIn text ∧ (x.fragment = "" ↔ x.offset = text.length) := by
  intro names text x
  have hrefuses : (Clause.parse names .orderBy text).map (fun _ => ()) = .error x := by
    decide +kernel
  have herror : Clause.parse names .orderBy text = .error x := map_eq_error_iff.mp hrefuses
  exact ⟨herror, (Clause.errors_lie_in_text names text).2 .orderBy x herror⟩

end ResourceQuery
