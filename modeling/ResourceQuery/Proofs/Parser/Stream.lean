import ResourceQuery.Proofs.Lexer.Positions
import ResourceQuery.Proofs.Parser.Run

/-!
# Reading a text as reading its spans

What a parser makes of a text depends on the spans of the text and on how they end, at the end of
the text or at a fault: the grammar takes one span after another until it refuses one. So an error
of a parser splits the spans into those that have been accepted and those from the place of the
error on.

Places reach a result only through the wording of errors. `ForgetsPlaces` says so of a grammar:
when its states forget the places that they hold, the same tokens are accepted.
-/

namespace ResourceQuery

set_option autoImplicit false

variable {σ α : Type} {g : Grammar σ α} {s s' : σ} {a : α} {l l' : Lexer} {e : LexError}
  {t : Token} {ts : List Token} {text : List Char} {x : ParseError} {problem : Problem}
  {forget : σ → σ} {spans : List Span}

namespace Lexer

/-- How the tokens end: with the lexer at the end of the text, or with the first fault. -/
def ending (l : Lexer) : Except LexError Lexer :=
  match _h : l.next with
  | (.error e, _) => .error e
  | (.ok none, l') => .ok l'
  | (.ok (some _), l') => ending l'
termination_by l.remaining
decreasing_by exact remaining_lt_of_next _h

theorem ending_of_next_error (h : l.next = (.error e, l')) : l.ending = .error e := by
  rw [ending]
  split <;> simp_all

theorem ending_of_next_none (h : l.next = (.ok none, l')) : l.ending = .ok l' := by
  rw [ending]
  split <;> simp_all

theorem ending_of_next_some (h : l.next = (.ok (some t), l')) : l.ending = l'.ending := by
  rw [ending]
  split <;> simp_all

theorem ending_eq_ok (hle : l.position ≤ l.text.length) (h : l.ending = .ok l') :
    l' = ⟨l.text, l.text.length, l.text.length⟩ := by
  induction l using tokenize.induct with
  | case1 l e l₁ hnext =>
    rw [ending_of_next_error hnext] at h
    cases h
  | case2 l l₁ hnext =>
    rw [ending_of_next_none hnext] at h
    cases h
    obtain ⟨hdrop, hl₁⟩ := place_of_next_none hnext
    have hnextStart : l.nextStart = l.text.length :=
      Nat.le_antisymm (nextStart_le hle) (List.drop_eq_nil_iff.mp hdrop)
    rw [hl₁, hnextStart]
  | case3 l t l₁ hnext ih =>
    obtain ⟨htext, _, hstands⟩ := place_of_next_some hnext
    rw [ending_of_next_some hnext] at h
    have hstop : l₁.position ≤ l.text.length := hstands.stop_le
    rw [← htext] at hstop ⊢
    exact ih hstop h

/-- The tokens of a text end with a fault if it is no text of tokens, and with that fault. -/
theorem ending_eq_error_iff : l.ending = .error e ↔ l.tokenize.1 = .error e := by
  induction l using tokenize.induct with
  | case1 l e' l₁ hnext =>
    rw [ending_of_next_error hnext, tokenize_of_next_error hnext, Except.error.injEq,
      Except.error.injEq]
  | case2 l l₁ hnext =>
    simp only [ending_of_next_none hnext, tokenize_of_next_none hnext, reduceCtorEq]
  | case3 l t l₁ hnext ih =>
    rw [ending_of_next_some hnext, tokenize_eq_map_of_next_some hnext, ih]
    cases l₁.tokenize.1 with
    | error e' => exact Iff.rfl
    | ok us => simp only [Except.map, reduceCtorEq]

theorem exists_ending_iff : (∃ l', l.ending = .ok l') ↔ ∃ ts, l.tokenize.1 = .ok ts := by
  have hiff := fun e => ending_eq_error_iff (l := l) (e := e)
  cases hending : l.ending with
  | error e =>
    rw [(hiff e).mp hending]
    exact ⟨nofun, nofun⟩
  | ok l' =>
    cases htokens : l.tokenize.1 with
    | error e =>
      rw [(hiff e).mpr htokens] at hending
      cases hending
    | ok ts => exact ⟨fun _ => ⟨ts, rfl⟩, fun _ => ⟨l', rfl⟩⟩

/-- The fault at which the tokens end concerns some of the text. -/
theorem of_ending_error (h : l.ending = .error e) :
    e.fragment ≠ "" ∧ e.offset < l.text.length := by
  induction l using tokenize.induct with
  | case1 l e' l₁ hnext =>
    rw [ending_of_next_error hnext] at h
    cases h
    exact fragment_of_next_error hnext
  | case2 l l₁ hnext =>
    rw [ending_of_next_none hnext] at h
    cases h
  | case3 l t l₁ hnext ih =>
    rw [ending_of_next_some hnext] at h
    have hlater := ih h
    rwa [(place_of_next_some hnext).1] at hlater

theorem position_le_of_ending_error (h : l.ending = .error e) : l.position ≤ e.offset := by
  induction l using tokenize.induct with
  | case1 l e' l₁ hnext =>
    rw [ending_of_next_error hnext] at h
    cases h
    obtain ⟨_, _, _, _, _, _, _, hoffset, _⟩ := place_of_next_error hnext
    exact hoffset ▸ position_le_nextStart
  | case2 l l₁ hnext =>
    rw [ending_of_next_none hnext] at h
    cases h
  | case3 l t l₁ hnext ih =>
    rw [ending_of_next_some hnext] at h
    obtain ⟨_, hstart, hstands⟩ := place_of_next_some hnext
    have hle : l.position ≤ l₁.tokenStart := hstart ▸ position_le_nextStart
    have hlt : l₁.tokenStart < l₁.position := hstands.start_lt
    have hlater := ih h
    omega

/-- The fault at which the tokens end lies behind all of them. -/
theorem stop_le_of_ending_error (h : l.ending = .error e) : ∀ s ∈ l.spans, s.stop ≤ e.offset := by
  induction l using tokenize.induct with
  | case1 l e' l₁ hnext =>
    rw [spans_of_next_error hnext]
    exact List.forall_mem_nil _
  | case2 l l₁ hnext =>
    rw [spans_of_next_none hnext]
    exact List.forall_mem_nil _
  | case3 l t l₁ hnext ih =>
    rw [ending_of_next_some hnext] at h
    rw [spans_of_next_some hnext]
    exact List.forall_mem_cons.mpr ⟨position_le_of_ending_error h, ih h⟩

end Lexer

/-- The parser that has just taken the token of the span. -/
def Span.parser (text : List Char) (span : Span) : Parser :=
  ⟨⟨text, span.start, span.stop⟩, some span.token⟩

def Span.lexeme (text : List Char) (span : Span) : Lexeme :=
  (span.parser text).lexeme span.token

namespace Grammar

/-- What a grammar makes of the spans of a text. -/
def run (g : Grammar σ α) (text : List Char) (ending : Except LexError Lexer) :
    σ → List Span → Except ParseError α
  | s, [] =>
    match ending with
    | .error e => .error e.toParseError
    | .ok l => (g.finish s).mapError (Parser.mk l none).locate
  | s, span :: spans =>
    match g.step s (span.lexeme text) with
    | .error problem => .error ((span.parser text).locate problem)
    | .ok s' => run g text ending s' spans

theorem run_eq_readFrom (g : Grammar σ α) (l : Lexer) (s : σ) :
    g.run l.text l.ending s l.spans =
      match Parser.ofLexer l with
      | .error x => .error x
      | .ok p => (p.readFrom g s).1 := by
  induction l using Lexer.tokenize.induct generalizing s with
  | case1 l e l' hnext =>
    rw [Lexer.spans_of_next_error hnext, Lexer.ending_of_next_error hnext,
      Parser.ofLexer_of_next_error hnext]
    rfl
  | case2 l l' hnext =>
    rw [Lexer.spans_of_next_none hnext, Lexer.ending_of_next_none hnext,
      Parser.ofLexer_of_next_ok hnext]
    simp only [run, Parser.readFrom]
  | case3 l t l' hnext ih =>
    obtain ⟨htext, _, _⟩ := Lexer.place_of_next_some hnext
    rw [Lexer.spans_of_next_some hnext, Lexer.ending_of_next_some hnext,
      Parser.ofLexer_of_next_ok hnext, ← htext, run]
    have hparser : Span.parser l'.text ⟨t, l'.tokenStart, l'.position⟩ = ⟨l', some t⟩ := rfl
    have hlexeme : Span.lexeme l'.text ⟨t, l'.tokenStart, l'.position⟩ =
        Parser.lexeme ⟨l', some t⟩ t := rfl
    rw [hparser, hlexeme]
    cases hstep : g.step s (Parser.lexeme ⟨l', some t⟩ t) with
    | error problem => simp only [Parser.readFrom_of_step_error hstep]
    | ok s' =>
      simp only [ih s']
      rcases hnext' : l'.next with ⟨e | current, l₂⟩
      · simp only [Parser.ofLexer_of_next_error hnext', Parser.readFrom_of_next_error hstep hnext']
      · have hq := Parser.ofLexer_of_next_ok hnext'
        simp only [hq, Parser.readFrom_of_step_ok hstep hq]

theorem parse_eq_run (g : Grammar σ α) (text : String) :
    g.parse text = g.run text.toList (Lexer.ofString text).ending g.start
      (Lexer.ofString text).spans := by
  have h := run_eq_readFrom g (Lexer.ofString text) g.start
  exact h.symm

/-- Spans that are accepted can be taken first. -/
theorem run_append {ending : Except LexError Lexer} {before after : List Span}
    (h : (before.map (Span.lexeme text)).foldlM g.step s = .ok s') :
    g.run text ending s (before ++ after) = g.run text ending s' after := by
  induction before generalizing s with
  | nil =>
    cases h
    rfl
  | cons span before ih =>
    rw [List.map_cons, List.foldlM_cons] at h
    cases hstep : g.step s (span.lexeme text) with
    | error problem =>
      rw [hstep] at h
      cases h
    | ok s₁ =>
      rw [hstep] at h
      rw [List.cons_append, run, hstep]
      exact ih h

/-- Why a run goes no further than to `spans`, and the error that comes of it. -/
inductive Refuses (g : Grammar σ α) (text : List Char) (ending : Except LexError Lexer) (s : σ) :
    List Span → ParseError → Prop where
  | fault {e : LexError} (hending : ending = .error e) : Refuses g text ending s [] e.toParseError
  | finish {l : Lexer} {problem : Problem} (hending : ending = .ok l)
    (h : g.finish s = .error problem) : Refuses g text ending s [] ((Parser.mk l none).locate problem)
  | step {span : Span} {spans : List Span} {problem : Problem}
    (h : g.step s (span.lexeme text) = .error problem) :
    Refuses g text ending s (span :: spans) ((span.parser text).locate problem)

theorem exists_refuses_of_run {ending : Except LexError Lexer}
    (h : g.run text ending s spans = .error x) :
    ∃ before after s', spans = before ++ after ∧
      (before.map (Span.lexeme text)).foldlM g.step s = .ok s' ∧
      g.Refuses text ending s' after x := by
  induction spans generalizing s with
  | nil =>
    refine ⟨[], [], s, rfl, rfl, ?_⟩
    unfold run at h
    split at h
    · cases h
      exact .fault rfl
    · cases hfinish : g.finish s with
      | error problem =>
        rw [hfinish] at h
        cases h
        exact .finish rfl hfinish
      | ok a =>
        rw [hfinish] at h
        cases h
  | cons span spans ih =>
    unfold run at h
    split at h
    · rename_i problem hstep
      cases h
      exact ⟨[], span :: spans, s, rfl, rfl, .step hstep⟩
    · rename_i s₁ hstep
      obtain ⟨before, after, s', rfl, hfold, hrefuses⟩ := ih h
      refine ⟨span :: before, after, s', rfl, ?_, hrefuses⟩
      rw [List.map_cons, List.foldlM_cons, hstep]
      exact hfold

/-- Tokens that end with a fault are no clause, whatever they are. -/
theorem exists_run_eq_error {e : LexError} (s : σ) (spans : List Span) :
    ∃ x, g.run text (.error e) s spans = .error x := by
  induction spans generalizing s with
  | nil => exact ⟨_, rfl⟩
  | cons span spans ih =>
    cases hstep : g.step s (span.lexeme text) with
    | error problem => exact ⟨(span.parser text).locate problem, by simp only [run, hstep]⟩
    | ok s' =>
      simp only [run, hstep]
      exact ih s'

/-- What a token does to a state when nothing is known of its place. -/
def stepToken (g : Grammar σ α) (s : σ) (t : Token) : Except Problem σ := g.step s ⟨t, "", 0⟩

/-- What comes of a state when some tokens are all that is left. -/
def accepts? (g : Grammar σ α) (s : σ) (ts : List Token) : Option α :=
  (feed g.stepToken g.finish s ts).toOption

/-- With the places forgotten that a state holds, the same tokens lead to the same result. -/
structure ForgetsPlaces (g : Grammar σ α) (forget : σ → σ) : Prop where
  start : forget g.start = g.start
  step : ∀ s x, (g.step s x).toOption.map forget = (g.stepToken (forget s) x.token).toOption
  finish : ∀ s, (g.finish s).toOption = (g.finish (forget s)).toOption

/-- A grammar whose steps look at tokens only has no places to forget. -/
theorem forgetsPlaces_id (h : ∀ s x, g.step s x = g.stepToken s x.token) : g.ForgetsPlaces id where
  start := rfl
  step := by
    intro s x
    rw [h, Option.map_id, id_eq, id_eq]
  finish := fun _ => rfl

theorem accepts?_cons_ok (h : g.stepToken s t = .ok s') :
    g.accepts? s (t :: ts) = g.accepts? s' ts := by
  rw [accepts?, feed_cons_ok h, accepts?]

theorem accepts?_cons_error (h : g.stepToken s t = .error problem) :
    g.accepts? s (t :: ts) = none := by
  rw [accepts?, feed_cons_error h]
  rfl

theorem accepts?_nil : g.accepts? s [] = (g.finish s).toOption := rfl

theorem accepts?_nil_eq_some_iff : g.accepts? s [] = some a ↔ g.finish s = .ok a := by
  rw [accepts?_nil]
  cases g.finish s with
  | error problem => exact ⟨nofun, nofun⟩
  | ok b => exact ⟨fun h => congrArg _ (Option.some.inj h), fun h => congrArg _ (Except.ok.inj h)⟩

theorem accepts?_cons_eq_some_iff :
    g.accepts? s (t :: ts) = some a ↔
      ∃ s', g.stepToken s t = .ok s' ∧ g.accepts? s' ts = some a := by
  constructor
  · intro h
    cases hstep : g.stepToken s t with
    | error problem =>
      rw [accepts?_cons_error hstep] at h
      cases h
    | ok s' => exact ⟨s', rfl, accepts?_cons_ok hstep ▸ h⟩
  · rintro ⟨s', hstep, h⟩
    rw [accepts?_cons_ok hstep, h]

/-- A state in which the text may not end needs a token. -/
theorem accepts?_iff_of_finish_error (hfinish : g.finish s = .error problem) :
    g.accepts? s ts = some a ↔
      ∃ t rest s', ts = t :: rest ∧ g.stepToken s t = .ok s' ∧ g.accepts? s' rest = some a := by
  cases ts with
  | nil =>
    rw [accepts?_nil, hfinish]
    exact ⟨nofun, nofun⟩
  | cons t ts =>
    rw [accepts?_cons_eq_some_iff]
    constructor
    · rintro ⟨s', hstep, h⟩
      exact ⟨t, ts, s', rfl, hstep, h⟩
    · rintro ⟨_, _, s', ⟨⟩, hstep, h⟩
      exact ⟨s', hstep, h⟩

namespace ForgetsPlaces

variable {y : Lexeme} {ys : List Lexeme}

theorem step_ok (hg : g.ForgetsPlaces forget) (h : g.step s y = .ok s') :
    g.stepToken (forget s) y.token = .ok (forget s') := by
  have hstep := hg.step s y
  rw [h] at hstep
  cases hforget : g.stepToken (forget s) y.token with
  | error problem =>
    rw [hforget] at hstep
    cases hstep
  | ok s₁ =>
    rw [hforget] at hstep
    cases hstep
    rfl

theorem step_error (hg : g.ForgetsPlaces forget) (h : g.step s y = .error problem) :
    ∃ problem', g.stepToken (forget s) y.token = .error problem' := by
  have hstep := hg.step s y
  rw [h] at hstep
  cases hforget : g.stepToken (forget s) y.token with
  | error problem' => exact ⟨problem', rfl⟩
  | ok s₁ =>
    rw [hforget] at hstep
    cases hstep

theorem foldlM_ok (hg : g.ForgetsPlaces forget) (h : ys.foldlM g.step s = .ok s') :
    g.accepts? (forget s) (ys.map Lexeme.token ++ ts) = g.accepts? (forget s') ts := by
  induction ys generalizing s with
  | nil =>
    cases h
    rfl
  | cons y ys ih =>
    cases hstep : g.step s y with
    | error problem =>
      rw [List.foldlM_cons, hstep] at h
      cases h
    | ok s₁ =>
      rw [List.foldlM_cons, hstep] at h
      rw [List.map_cons, List.cons_append, accepts?_cons_ok (hg.step_ok hstep)]
      exact ih h

theorem feed_toOption (hg : g.ForgetsPlaces forget) :
    (feed g.step g.finish s ys).toOption = g.accepts? (forget s) (ys.map Lexeme.token) := by
  induction ys generalizing s with
  | nil => exact hg.finish s
  | cons y ys ih =>
    cases hstep : g.step s y with
    | error problem =>
      obtain ⟨problem', hforget⟩ := hg.step_error hstep
      rw [feed_cons_error hstep, List.map_cons, accepts?_cons_error hforget]
      rfl
    | ok s₁ => rw [feed_cons_ok hstep, List.map_cons, accepts?_cons_ok (hg.step_ok hstep), ih]

/-- Which tree a text has depends on its tokens alone. -/
theorem parse_eq_ok_iff (hg : g.ForgetsPlaces forget) {text : String} :
    g.parse text = .ok a ↔
      ∃ ts, tokenize text = .ok ts ∧ g.accepts? g.start ts = some a := by
  apply parse_eq_ok_iff_of_tokens
  intro xs
  rw [← hg.start, ← hg.feed_toOption, hg.start]
  cases feed g.step g.finish g.start xs with
  | error problem => exact ⟨nofun, nofun⟩
  | ok b =>
    constructor
    · rintro ⟨⟩
      rfl
    · rintro ⟨⟩
      rfl

end ForgetsPlaces

end Grammar

end ResourceQuery
