import ResourceQuery.Parser
import ResourceQuery.Proofs.Lexer.Tokenization

/-!
# What a parser does with a whole text

A parser takes its tokens one ahead of the grammar. If it succeeds, the tokens of the text are
all there and the grammar has accepted each of them in turn; and if both hold, it succeeds. So
for a clause that is read, the lexer and the grammar can be looked at one after the other.
-/

namespace ResourceQuery

set_option autoImplicit false

variable {σ α β : Type} {g : Grammar σ α} {s s' : σ} {a : α} {l l' : Lexer} {p q : Parser}
  {t : Token} {xs : List Lexeme} {ts : List Token}

section

variable {step : σ → β → Except Problem σ} {finish : σ → Except Problem α} {x : β} {bs : List β}

/-- What comes of a state when it takes one item after another, up to the end of them. -/
def feed (step : σ → β → Except Problem σ) (finish : σ → Except Problem α) (s : σ)
    (bs : List β) : Except Problem α :=
  bs.foldlM step s >>= finish

theorem feed_cons_ok (h : step s x = .ok s') :
    feed step finish s (x :: bs) = feed step finish s' bs := by
  rw [feed, List.foldlM_cons, h]
  rfl

theorem feed_cons_error {problem : Problem} (h : step s x = .error problem) :
    feed step finish s (x :: bs) = .error problem := by
  rw [feed, List.foldlM_cons, h]
  rfl

/-- Where an item is taken just if it meets what is demanded, and leaves what is demanded after it,
all items are taken just if they meet the demand together. -/
theorem feed_eq_ok_iff_demands (demands : σ → List β → Prop)
    (hnil : ∀ s, demands s [] ↔ finish s = .ok a)
    (hcons : ∀ s x bs, demands s (x :: bs) ↔ ∃ s', step s x = .ok s' ∧ demands s' bs) :
    feed step finish s bs = .ok a ↔ demands s bs := by
  induction bs generalizing s with
  | nil => exact (hnil s).symm
  | cons x bs ih =>
    rw [hcons]
    cases hstep : step s x with
    | error problem =>
      rw [feed_cons_error hstep]
      constructor
      · nofun
      · rintro ⟨_, ⟨⟩, _⟩
    | ok s' =>
      rw [feed_cons_ok hstep, ih]
      constructor
      · intro h
        exact ⟨s', rfl, h⟩
      · rintro ⟨_, ⟨⟩, h⟩
        exact h

end

namespace Parser

theorem ofLexer_of_next_ok {current : Option Token} (h : l.next = (.ok current, l')) :
    ofLexer l = .ok ⟨l', current⟩ := by
  simp only [ofLexer, h]

theorem ofLexer_of_next_error {e : LexError} (h : l.next = (.error e, l')) :
    ofLexer l = .error e.toParseError := by
  simp only [ofLexer, h]

def lexeme (p : Parser) (t : Token) : Lexeme := ⟨t, p.fragment, p.offset⟩

/-- The lexemes that are still to come, if there is no fault before the end. -/
inductive Yields : Parser → List Lexeme → Prop where
  | done {l : Lexer} : Yields ⟨l, none⟩ []
  | lexeme {l : Lexer} {t : Token} {q : Parser} {xs : List Lexeme} (hnext : ofLexer l = .ok q)
    (h : Yields q xs) : Yields ⟨l, some t⟩ (lexeme ⟨l, some t⟩ t :: xs)

theorem readFrom_none : (readFrom g s ⟨l, none⟩).1 = .ok a ↔ g.finish s = .ok a := by
  rw [readFrom]
  cases g.finish s with
  | error problem =>
    constructor
    · intro h
      cases h
    · intro h
      cases h
  | ok b => exact ⟨fun h => congrArg Except.ok (Except.ok.inj h),
      fun h => congrArg Except.ok (Except.ok.inj h)⟩

theorem readFrom_of_step_error {problem : Problem}
    (h : g.step s (lexeme ⟨l, some t⟩ t) = .error problem) :
    readFrom g s ⟨l, some t⟩ = (.error (locate ⟨l, some t⟩ problem), ⟨l, some t⟩) := by
  rw [readFrom]
  simp only [lexeme] at h
  simp only [h]

theorem readFrom_of_next_error {e : LexError} (h : g.step s (lexeme ⟨l, some t⟩ t) = .ok s')
    (hnext : l.next = (.error e, l')) :
    readFrom g s ⟨l, some t⟩ = (.error e.toParseError, ⟨l', some t⟩) := by
  rw [readFrom]
  simp only [lexeme] at h
  simp only [h]
  split
  · rename_i hnext'
    rw [hnext] at hnext'
    cases hnext'
    rfl
  · rename_i hnext'
    rw [hnext] at hnext'
    cases hnext'

theorem readFrom_of_step_ok (h : g.step s (lexeme ⟨l, some t⟩ t) = .ok s')
    (hnext : ofLexer l = .ok q) :
    readFrom g s ⟨l, some t⟩ = readFrom g s' q := by
  rw [readFrom]
  simp only [lexeme] at h
  simp only [h]
  split
  · rename_i herror
    rw [ofLexer_of_next_error herror] at hnext
    cases hnext
  · rename_i hok
    rw [ofLexer_of_next_ok hok] at hnext
    cases hnext
    rfl

theorem readFrom_of_yields (h : p.Yields xs) (hrun : feed g.step g.finish s xs = .ok a) :
    (p.readFrom g s).1 = .ok a := by
  induction h generalizing s with
  | done => exact readFrom_none.mpr hrun
  | @lexeme l t q xs hnext _ ih =>
    cases hstep : g.step s (lexeme ⟨l, some t⟩ t) with
    | error problem =>
      rw [feed_cons_error hstep] at hrun
      cases hrun
    | ok s' =>
      rw [feed_cons_ok hstep] at hrun
      rw [readFrom_of_step_ok hstep hnext]
      exact ih hrun

theorem yields_of_readFrom (h : (p.readFrom g s).1 = .ok a) :
    ∃ xs, p.Yields xs ∧ feed g.step g.finish s xs = .ok a := by
  induction s, p using readFrom.induct g with
  | case1 s l => exact ⟨[], .done, readFrom_none.mp h⟩
  | case2 s l t p problem hstep =>
    rw [readFrom_of_step_error hstep] at h
    cases h
  | case3 s l t p s' hstep e l' hnext =>
    rw [readFrom_of_next_error hstep hnext] at h
    cases h
  | case4 s l t p s' hstep current l' hnext ih =>
    have hq := ofLexer_of_next_ok hnext
    rw [readFrom_of_step_ok hstep hq] at h
    obtain ⟨xs, hxs, hrun⟩ := ih h
    exact ⟨_, .lexeme hq hxs, (feed_cons_ok hstep).trans hrun⟩

theorem yields_none_iff : Yields ⟨l, none⟩ xs ↔ xs = [] := by
  constructor
  · rintro ⟨⟩
    rfl
  · rintro rfl
    exact .done

theorem yields_some_iff :
    Yields ⟨l, some t⟩ xs ↔
      ∃ q ys, ofLexer l = .ok q ∧ q.Yields ys ∧ xs = lexeme ⟨l, some t⟩ t :: ys := by
  constructor
  · rintro (_ | ⟨hnext, h⟩)
    exact ⟨_, _, hnext, h, rfl⟩
  · rintro ⟨q, ys, hnext, h, rfl⟩
    exact .lexeme hnext h

/-- The tokens of a text are those that a parser of the text takes one by one. -/
theorem tokenize_eq_ok_iff :
    l.tokenize.1 = .ok ts ↔
      ∃ p xs, ofLexer l = .ok p ∧ p.Yields xs ∧ xs.map Lexeme.token = ts := by
  induction l using Lexer.tokenize.induct generalizing ts with
  | case1 l e l' hnext =>
    rw [Lexer.tokenize_of_next_error hnext, ofLexer_of_next_error hnext]
    constructor
    · intro h
      cases h
    · rintro ⟨p, xs, hp, _⟩
      cases hp
  | case2 l l' hnext =>
    rw [Lexer.tokenize_of_next_none hnext, ofLexer_of_next_ok hnext]
    constructor
    · rintro ⟨⟩
      exact ⟨_, [], rfl, .done, rfl⟩
    · rintro ⟨p, xs, ⟨⟩, hxs, rfl⟩
      rw [yields_none_iff.mp hxs]
      rfl
  | case3 l t l' hnext ih =>
    rw [Lexer.tokenize_of_next_some hnext, ofLexer_of_next_ok hnext]
    constructor
    · rintro ⟨us, rfl, hus⟩
      obtain ⟨q, ys, hq, hys, rfl⟩ := ih.mp hus
      exact ⟨_, _, rfl, .lexeme hq hys, rfl⟩
    · rintro ⟨p, xs, ⟨⟩, hxs, rfl⟩
      obtain ⟨q, ys, hq, hys, rfl⟩ := yields_some_iff.mp hxs
      exact ⟨ys.map Lexeme.token, rfl, ih.mpr ⟨q, ys, hq, hys, rfl⟩⟩

end Parser

namespace Grammar

theorem parse_eq_ok_iff {text : String} :
    g.parse text = .ok a ↔ ∃ p xs, Parser.ofLexer (.ofString text) = .ok p ∧ p.Yields xs ∧
      feed g.step g.finish g.start xs = .ok a := by
  unfold parse
  constructor
  · intro h
    split at h
    · cases h
    · rename_i p hp
      obtain ⟨xs, hxs, hrun⟩ := Parser.yields_of_readFrom h
      exact ⟨p, xs, hp, hxs, hrun⟩
  · rintro ⟨p, xs, hp, hxs, hrun⟩
    rw [hp]
    exact Parser.readFrom_of_yields hxs hrun

/-- Where it depends on the tokens alone whether a clause is accepted, a text is read as its tokens
are. -/
theorem parse_eq_ok_iff_of_tokens {accepts : List Token → Prop} {text : String}
    (h : ∀ xs, feed g.step g.finish g.start xs = .ok a ↔ accepts (xs.map Lexeme.token)) :
    g.parse text = .ok a ↔ ∃ ts, tokenize text = .ok ts ∧ accepts ts := by
  rw [parse_eq_ok_iff]
  constructor
  · rintro ⟨p, xs, hp, hxs, hrun⟩
    exact ⟨xs.map Lexeme.token, Parser.tokenize_eq_ok_iff.mpr ⟨p, xs, hp, hxs, rfl⟩,
      (h xs).mp hrun⟩
  · rintro ⟨ts, hts, haccepts⟩
    obtain ⟨p, xs, hp, hxs, rfl⟩ := Parser.tokenize_eq_ok_iff.mp hts
    exact ⟨p, xs, hp, hxs, (h xs).mpr haccepts⟩

theorem parse_eq_ok_iff_tokenize {step : σ → Token → Except Problem σ}
    (hstep : ∀ s x, g.step s x = step s x.token) {text : String} :
    g.parse text = .ok a ↔
      ∃ ts, tokenize text = .ok ts ∧ feed step g.finish g.start ts = .ok a := by
  apply parse_eq_ok_iff_of_tokens
  intro xs
  have hg : g.step = fun s x => step s x.token := funext fun s => funext (hstep s)
  rw [feed, feed, List.foldlM_map, hg]

end Grammar

end ResourceQuery
