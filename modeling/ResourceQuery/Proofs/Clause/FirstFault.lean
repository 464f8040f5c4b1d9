import Mathlib.Data.List.Infix
import ResourceQuery.Proofs.Clause.Completion

/-!
# Errors lie at the first token that cannot be right

The tokens before the place of an error can be gone on with to a clause that is accepted, and
with the token at its place, or with the end if the text ends there, they cannot. The first half
holds of every error, since a grammar can finish what it has taken; the second holds of the
errors that a grammar gives when it refuses a token. A sort key without a direction is reported
at its own place and not at that of the token which shows it.
-/

namespace ResourceQuery

set_option autoImplicit false

variable {σ α : Type} {g : Grammar σ α} {s s' : σ} {a : α} {forget : σ → σ} {text : String}
  {x : ParseError} {before after spans : List Span} {ts : List Token}

/-- The tokens of a text that begin before an offset. -/
def tokensBefore (text : String) (offset : Nat) : List Token :=
  ((Lexer.ofString text).spans.filter fun span => decide (span.start < offset)).map Span.token

/-- The token of a text that begins at an offset. -/
def tokenAt? (text : String) (offset : Nat) : Option Token :=
  ((Lexer.ofString text).spans.find? fun span => decide (span.start = offset)).map Span.token

/-- Some accepted text begins with the tokens; `none` stands for the end of a text. -/
def Clause.Viable (names : PrefixMap) (clause : Clause) (ts : List (Option Token)) : Prop :=
  ∃ text tree us, clause.parse names text = .ok tree ∧ tokenize text = .ok us ∧
    ts <+: us.map some ++ [none]

theorem map_prefix_concat_none {us : List Token} :
    ts.map some <+: us.map some ++ [none] ↔ ts <+: us := by
  have hinj : Function.Injective (some : Token → Option Token) := fun _ _ => Option.some.inj
  rw [List.prefix_concat_iff, List.prefix_map_iff_of_injective hinj]
  constructor
  · rintro (heq | hfront)
    · have hmem : (none : Option Token) ∈ ts.map some := by
        rw [heq]
        exact List.mem_append_right _ List.mem_cons_self
      simp at hmem
    · exact hfront
  · exact Or.inr

theorem eq_of_concat_none {us : List Token}
    (h : ts.map some ++ [none] <+: us.map some ++ [none]) : us = ts := by
  have hinj : Function.Injective (List.map (some : Token → Option Token)) :=
    List.map_injective_iff.mpr fun _ _ => Option.some.inj
  rcases List.prefix_concat_iff.mp h with heq | hfront
  · exact (hinj (List.append_cancel_right heq)).symm
  · have hmem := hfront.subset (List.mem_append_right _ List.mem_cons_self)
    simp at hmem

theorem filter_start_isPrefix (h : spans.Pairwise fun s s' => s.start ≤ s'.start) (offset : Nat) :
    spans.filter (fun span => decide (span.start < offset)) <+: spans := by
  induction spans with
  | nil => exact List.nil_prefix
  | cons span spans ih =>
    obtain ⟨hfirst, hlater⟩ := List.pairwise_cons.mp h
    by_cases hlt : span.start < offset
    · rw [List.filter_cons_of_pos (by simpa using hlt), List.cons_prefix_cons]
      exact ⟨rfl, ih hlater⟩
    · have hnone : (span :: spans).filter (fun span => decide (span.start < offset)) = [] := by
        rw [List.filter_eq_nil_iff]
        intro other hother
        have hle : span.start ≤ other.start := by
          rcases List.mem_cons.mp hother with rfl | hother
          · exact Nat.le_refl _
          · exact hfirst other hother
        simp only [decide_eq_true_eq]
        omega
      rw [hnone]
      exact List.nil_prefix

section

variable (hspans : (Lexer.ofString text).spans = before ++ after)
include hspans

theorem stands_of_mem_before : ∀ span ∈ before, span.Stands text.toList := by
  intro span hspan
  apply Lexer.stands_of_mem_spans (l := Lexer.ofString text)
  rw [hspans]
  exact List.mem_append_left _ hspan

theorem pairwise_split : (before ++ after).Pairwise fun s s' => s.start < s'.start := by
  have hstands : ∀ span ∈ (Lexer.ofString text).spans, span.start < span.stop :=
    fun span h => (Lexer.stands_of_mem_spans h).start_lt
  rw [← hspans]
  apply Lexer.pairwise_spans.imp_of_mem
  intro s s' hs _ hle
  have := hstands s hs
  omega

theorem tokensBefore_eq_filter {offset : Nat} (hafter : ∀ span ∈ after, offset ≤ span.start) :
    tokensBefore text offset =
      (before.filter fun span => decide (span.start < offset)).map Span.token := by
  have hnone : after.filter (fun span => decide (span.start < offset)) = [] := by
    rw [List.filter_eq_nil_iff]
    intro span hspan
    have := hafter span hspan
    simp only [decide_eq_true_eq]
    omega
  rw [tokensBefore, hspans, List.filter_append, hnone, List.append_nil]

theorem tokensBefore_isPrefix {offset : Nat} (hafter : ∀ span ∈ after, offset ≤ span.start) :
    tokensBefore text offset <+: before.map Span.token := by
  have hasc := (List.pairwise_append.mp (pairwise_split hspans)).1.imp Nat.le_of_lt
  rw [tokensBefore_eq_filter hspans hafter]
  exact (filter_start_isPrefix hasc offset).map _

theorem tokensBefore_eq {offset : Nat} (hbefore : ∀ span ∈ before, span.start < offset)
    (hafter : ∀ span ∈ after, offset ≤ span.start) :
    tokensBefore text offset = before.map Span.token := by
  have hall : before.filter (fun span => decide (span.start < offset)) = before := by
    rw [List.filter_eq_self]
    intro span hspan
    exact decide_eq_true (hbefore span hspan)
  rw [tokensBefore_eq_filter hspans hafter, hall]

theorem tokenAt?_eq {offset : Nat} (hbefore : ∀ span ∈ before, span.start < offset)
    (hafter : ∀ span ∈ after.head?, span.start = offset) :
    tokenAt? text offset = after.head?.map Span.token := by
  have hnone : before.find? (fun span => decide (span.start = offset)) = none := by
    rw [List.find?_eq_none]
    intro span hspan
    have := hbefore span hspan
    simp only [decide_eq_true_eq]
    omega
  rw [tokenAt?, hspans, List.find?_append, hnone, Option.none_or]
  cases after with
  | nil => rfl
  | cons span after =>
    rw [List.find?_cons_of_pos (by simpa using hafter span rfl)]
    rfl

end

/-- An error has the place of a key that has been taken, or else begins where the lexer stands. -/
theorem Parser.locate_cases (p : Parser) (problem : Problem) :
    (∃ key offset, problem = .undirected key offset ∧ p.locate problem = ⟨problem, key, offset⟩) ∨
      ∃ stop, (stop = p.lexer.position ∨ stop = p.lexer.text.length) ∧
        p.locate problem = ⟨problem, p.lexer.slice p.offset stop, p.offset⟩ := by
  cases problem with
  | undirected key offset => exact Or.inl ⟨key, offset, rfl, rfl⟩
  | unclosedSpace pfx => exact Or.inr ⟨_, Or.inr rfl, rfl⟩
  | _ => exact Or.inr ⟨_, Or.inl rfl, rfl⟩

theorem Parser.offset_locate (p : Parser) (problem : Problem) :
    (p.locate problem).offset = p.offset ∨
      ∃ key offset, problem = .undirected key offset ∧ (p.locate problem).offset = offset := by
  rcases p.locate_cases problem with ⟨key, offset, hproblem, hlocate⟩ | ⟨stop, _, hlocate⟩
  · exact Or.inr ⟨key, offset, hproblem, congrArg ParseError.offset hlocate⟩
  · exact Or.inl (congrArg ParseError.offset hlocate)

theorem Parser.problem_locate (p : Parser) (problem : Problem) :
    (p.locate problem).problem = problem := by
  cases problem <;> rfl

theorem Grammar.Tracks.foldlM {holds : (String → Nat → Prop) → σ → Prop} (hg : g.Tracks holds)
    {P : String → Nat → Prop} {xs : List Lexeme} (hs : holds P s)
    (hxs : ∀ y ∈ xs, P y.fragment y.offset) (h : xs.foldlM g.step s = .ok s') : holds P s' := by
  induction xs generalizing s with
  | nil =>
    cases h
    exact hs
  | cons y xs ih =>
    obtain ⟨hy, hxs⟩ := List.forall_mem_cons.mp hxs
    rw [List.foldlM_cons] at h
    cases hstep : g.step s y with
    | error problem =>
      rw [hstep] at h
      cases h
    | ok s₁ =>
      rw [hstep] at h
      exact ih (hg.step hs hy hstep) hxs h

namespace Grammar.Regular

/-- No token from the place of an error on has been accepted. -/
theorem offset_le_of_refuses (hg : g.Regular) {ending : Except LexError Lexer}
    (hspans : (Lexer.ofString text).spans = before ++ after)
    (hfold : (before.map (Span.lexeme text.toList)).foldlM g.step g.start = .ok s')
    (hrefuses : g.Refuses text.toList ending s' after x) :
    ∀ span ∈ after, x.offset ≤ span.start := by
  cases hrefuses with
  | fault => nofun
  | finish => nofun
  | @step span spans problem hstep =>
    obtain ⟨_, hlater, hbefore⟩ := List.pairwise_append.mp (pairwise_split hspans)
    have hle : ((span.parser text.toList).locate problem).offset ≤ span.start := by
      rcases Parser.offset_locate (span.parser text.toList) problem with hoffset | ⟨key, o, rfl, hoffset⟩
      · exact Nat.le_of_eq hoffset
      · -- the key has been taken before this token, so it begins before it
        obtain ⟨holds, htracks⟩ := hg.tracks
        have hholds : holds (fun _ o => o ≤ span.start) s' := by
          apply htracks.foldlM (htracks.start _) _ hfold
          intro y hy
          obtain ⟨other, hother, rfl⟩ := List.mem_map.mp hy
          exact Nat.le_of_lt (hbefore other hother span List.mem_cons_self)
        rw [hoffset]
        exact htracks.step_error hholds hstep
    intro other hother
    rcases List.mem_cons.mp hother with rfl | hother
    · exact hle
    · have := (List.pairwise_cons.mp hlater).1 other hother
      omega

/-- Where a grammar refuses a token or the end, the error lies at the token or the end. -/
theorem offset_of_refuses {ending : Except LexError Lexer}
    (hspans : (Lexer.ofString text).spans = before ++ after)
    (hending : (Lexer.ofString text).ending = ending)
    (hrefuses : g.Refuses text.toList ending s' after x)
    (hlexical : ∀ fault, x.problem ≠ .lexical fault)
    (hdirected : ∀ key offset, x.problem ≠ .undirected key offset) :
    (∀ span ∈ before, span.start < x.offset) ∧ (∀ span ∈ after.head?, span.start = x.offset) ∧
      (after = [] → x.offset = text.length) := by
  have hoffset : ∀ p problem, (∀ key offset, problem ≠ .undirected key offset) →
      (Parser.locate p problem).offset = p.offset := by
    intro p problem hne
    rcases Parser.offset_locate p problem with hoffset | ⟨key, o, hkey, _⟩
    · exact hoffset
    · exact absurd hkey (hne key o)
  cases hrefuses with
  | @fault e => exact absurd rfl (hlexical e.fault)
  | @finish l problem hok hfinish =>
    have hl := Lexer.ending_eq_ok (l := Lexer.ofString text) (Nat.zero_le _) (hending.trans hok)
    have hend : ((Parser.mk l none).locate problem).offset = text.toList.length := by
      rw [hoffset _ _ (by simpa only [Parser.problem_locate] using hdirected), hl]
      rfl
    refine ⟨?_, nofun, fun _ => hend⟩
    intro span hspan
    have hstands := stands_of_mem_before hspans span hspan
    have hlt := hstands.start_lt
    have hle := hstands.stop_le
    omega
  | @step span spans problem hstep =>
    have hplace : ((span.parser text.toList).locate problem).offset = span.start :=
      hoffset _ _ (by simpa only [Parser.problem_locate] using hdirected)
    rw [hplace]
    refine ⟨?_, ?_, nofun⟩
    · intro other hother
      exact (List.pairwise_append.mp (pairwise_split hspans)).2.2 other hother span
        List.mem_cons_self
    · rintro other ⟨⟩
      rfl

theorem accepts?_append (hforget : g.ForgetsPlaces forget)
    (hfold : (before.map (Span.lexeme text.toList)).foldlM g.step g.start = .ok s') :
    g.accepts? g.start (before.map Span.token ++ ts) = g.accepts? (forget s') ts := by
  have hall : g.accepts? (forget g.start)
      ((before.map (Span.lexeme text.toList)).map Lexeme.token ++ ts) =
        g.accepts? (forget s') ts := hforget.foldlM_ok hfold
  rwa [hforget.start, List.map_map] at hall

/-- No tokens are accepted that go on after those before an error as the text does. -/
theorem accepts?_eq_none (hforget : g.ForgetsPlaces forget) {ending : Except LexError Lexer}
    (hfold : (before.map (Span.lexeme text.toList)).foldlM g.step g.start = .ok s')
    (hrefuses : g.Refuses text.toList ending s' after x)
    (hlexical : ∀ fault, x.problem ≠ .lexical fault)
    (hts : (before.map Span.token).map some ++ [after.head?.map Span.token] <+:
      ts.map some ++ [none]) : g.accepts? g.start ts = none := by
  cases hrefuses with
  | @fault e => exact absurd rfl (hlexical e.fault)
  | finish _ hfinish =>
    obtain rfl : ts = before.map Span.token := eq_of_concat_none hts
    rw [← List.append_nil (before.map Span.token), accepts?_append hforget hfold, accepts?_nil,
      ← hforget.finish, hfinish]
    rfl
  | @step span spans problem hstep =>
    have hfound : before.map Span.token ++ [span.token] <+: ts := by
      rw [← map_prefix_concat_none, List.map_append]
      exact hts
    obtain ⟨later, rfl⟩ := hfound
    obtain ⟨problem', hrefused⟩ := hforget.step_error hstep
    rw [List.append_assoc, accepts?_append hforget hfold]
    exact accepts?_cons_error hrefused

/-- What comes before an error can be gone on with. -/
theorem exists_accepted (hg : g.Regular) {accepted : String} (haccepted : g.parse accepted = .ok a)
    (h : g.parse text = .error x) :
    ∃ text' a' us, g.parse text' = .ok a' ∧ tokenize text' = .ok us ∧
      tokensBefore text x.offset <+: us := by
  rw [parse_eq_run] at h
  obtain ⟨before, after, s', hspans, hfold, hrefuses⟩ := exists_refuses_of_run h
  obtain ⟨forget, hforget⟩ := hg.forgets
  obtain ⟨ts, a', hts, haccepts⟩ := hg.completable haccepted (forget s')
  have hbefore : ∀ t ∈ before.map Span.token, t.WellFormed := by
    intro t ht
    obtain ⟨span, hspan, rfl⟩ := List.mem_map.mp ht
    exact (stands_of_mem_before hspans span hspan).wellFormed
  have htokens : tokenize (" ".intercalate ((before.map Span.token ++ ts).map Token.text)) =
      .ok (before.map Span.token ++ ts) :=
    tokenize_eq_ok_iff.mpr (tokenizes_spaced (List.forall_mem_append.mpr ⟨hbefore, hts⟩))
  -- the state forgets places to be finished, and the accepted tokens are then spelled as a text
  refine ⟨_, a', _, hforget.parse_eq_ok_iff.mpr ⟨_, htokens, ?_⟩, htokens, ?_⟩
  · exact (accepts?_append hforget hfold).trans haccepts
  · have hfront := tokensBefore_isPrefix hspans (hg.offset_le_of_refuses hspans hfold hrefuses)
    exact hfront.trans (List.prefix_append _ _)

/-- What comes before an error cannot be gone on with as the text does. -/
theorem not_accepted (hg : g.Regular) (h : g.parse text = .error x)
    (hlexical : ∀ fault, x.problem ≠ .lexical fault)
    (hdirected : ∀ key offset, x.problem ≠ .undirected key offset) :
    (tokenAt? text x.offset = none → x.offset = text.length) ∧
    ∀ text' a us, g.parse text' = .ok a → tokenize text' = .ok us →
      ¬ (tokensBefore text x.offset).map some ++ [tokenAt? text x.offset] <+:
        us.map some ++ [none] := by
  rw [parse_eq_run] at h
  obtain ⟨before, after, s', hspans, hfold, hrefuses⟩ := exists_refuses_of_run h
  obtain ⟨forget, hforget⟩ := hg.forgets
  obtain ⟨hbefore, hhead, hend⟩ := offset_of_refuses hspans rfl hrefuses hlexical hdirected
  have hafter := hg.offset_le_of_refuses hspans hfold hrefuses
  rw [tokensBefore_eq hspans hbefore hafter, tokenAt?_eq hspans hbefore hhead]
  refine ⟨?_, ?_⟩
  · intro hnone
    exact hend (List.head?_eq_none_iff.mp (Option.map_eq_none_iff.mp hnone))
  · intro text' a us hparse htokens hfront
    obtain ⟨ts, hts, haccepted⟩ := hforget.parse_eq_ok_iff.mp hparse
    rw [htokens] at hts
    cases hts
    rw [accepts?_eq_none hforget hfold hrefuses hlexical hfront] at haccepted
    cases haccepted

end Grammar.Regular

/-- Where every problem lies with what comes next, the accepted tokens begin before the error. -/
theorem Grammar.Local.start_lt_of_refuses (hg : g.Local)
    (hspans : (Lexer.ofString text).spans = before ++ after)
    (hrefuses : g.Refuses text.toList (Lexer.ofString text).ending s' after x) :
    ∀ span ∈ before, span.start < x.offset := by
  by_cases hlocal : x.problem.isLocal = true
  · have hlexical : ∀ fault, x.problem ≠ .lexical fault := by
      intro fault hfault
      rw [hfault] at hlocal
      exact Bool.false_ne_true hlocal
    have hdirected : ∀ key offset, x.problem ≠ .undirected key offset := by
      intro key offset hkey
      rw [hkey] at hlocal
      exact Bool.false_ne_true hlocal
    exact (Regular.offset_of_refuses hspans rfl hrefuses hlexical hdirected).1
  · cases hrefuses with
    | @fault e hending =>
      intro span hspan
      have hmem : span ∈ (Lexer.ofString text).spans := hspans ▸ List.mem_append_left _ hspan
      have hlt := (Lexer.stands_of_mem_spans hmem).start_lt
      have hstop := Lexer.stop_le_of_ending_error hending span hmem
      exact Nat.lt_of_lt_of_le hlt hstop
    | finish _ hfinish =>
      rw [Parser.problem_locate] at hlocal
      exact absurd (hg.finish hfinish) hlocal
    | step hstep =>
      rw [Parser.problem_locate] at hlocal
      exact absurd (hg.step hstep) hlocal

/-- An error lies at the first token that cannot be right. -/
theorem Clause.parse_error_at_first_fault (names : PrefixMap) (clause : Clause)
    (haccepts : ∃ text tree, clause.parse names text = .ok tree) {text : String} {x : ParseError}
    (h : clause.parse names text = .error x) :
    clause.Viable names ((tokensBefore text x.offset).map some) ∧
    ((∀ fault, x.problem ≠ .lexical fault) → (∀ key offset, x.problem ≠ .undirected key offset) →
      (tokenAt? text x.offset = none → x.offset = text.length) ∧
      ¬ clause.Viable names
        ((tokensBefore text x.offset).map some ++ [tokenAt? text x.offset])) := by
  obtain ⟨σ, α, g, f, hg, hparse, _⟩ := clause.exists_grammar names
  have hok : ∀ text tree, clause.parse names text = .ok tree ↔
      ∃ a, g.parse text = .ok a ∧ f a = tree := fun text tree => by rw [hparse, map_eq_ok_iff]
  have hx : g.parse text = .error x := by
    rwa [hparse, map_eq_error_iff] at h
  refine ⟨?_, ?_⟩
  · obtain ⟨accepted, tree, haccepted⟩ := haccepts
    obtain ⟨a, ha, _⟩ := (hok accepted tree).mp haccepted
    obtain ⟨text', a', us, hparse', htokens, hfront⟩ := hg.exists_accepted ha hx
    exact ⟨text', f a', us, (hok text' (f a')).mpr ⟨a', hparse', rfl⟩, htokens,
      map_prefix_concat_none.mpr hfront⟩
  · intro hlexical hdirected
    obtain ⟨hend, hnone⟩ := hg.not_accepted hx hlexical hdirected
    refine ⟨hend, ?_⟩
    rintro ⟨text', tree, us, haccepted, htokens, hfront⟩
    obtain ⟨a, ha, _⟩ := (hok text' tree).mp haccepted
    exact hnone text' a us ha htokens hfront

/-- In a list of operands a name cannot come after a comma, while the list up to the comma can be
gone on with. -/
theorem Clause.parse_error_at_first_fault_in_list :
    let names := PrefixMap.empty.insert "p" "http://e/"
    let before : List (Option Token) := [some (.prefixed "p" "a"), some (.mark .membership),
      some (.mark .openBracket), some (.boolean true), some (.mark .comma)]
    Clause.condition.Viable names before ∧
      ¬ Clause.condition.Viable names (before ++ [some (.prefixed "p" "b")]) := by
  intro names before
  have haccepts : (Clause.condition.parse names "p:a=true").map (fun _ => ()) = .ok () := by
    decide +kernel
  have hrefuses : (Clause.condition.parse names "p:a in [true, p:b").map (fun _ => ()) =
      .error ⟨.expected .literal (some (.prefixed "p" "b")), "p:b", 14⟩ := by
    decide +kernel
  have hbefore : (tokensBefore "p:a in [true, p:b" 14).map some = before := by decide +kernel
  have hat : tokenAt? "p:a in [true, p:b" 14 = some (.prefixed "p" "b") := by decide +kernel
  obtain ⟨tree, haccepted, _⟩ := map_eq_ok_iff.mp haccepts
  obtain ⟨hviable, hfault⟩ := Clause.parse_error_at_first_fault names .condition
    ⟨_, _, haccepted⟩ (map_eq_error_iff.mp hrefuses)
  have hstop := (hfault nofun nofun).2
  rw [hbefore] at hviable hstop
  rw [hat] at hstop
  exact ⟨hviable, hstop⟩

end ResourceQuery
