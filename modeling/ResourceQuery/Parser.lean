import ResourceQuery.ParseError

/-!
# Parsers and grammars

A `Grammar` says what one token does to a clause that is being read, and what the end of the
text does to it; it never looks ahead. A `Parser` feeds the tokens of a text to a grammar and
gives a problem its place. It takes each token from the text only when the one before it has
been accepted, so the first fault of either kind is reported.

A parser goes on after an error: the token that was refused is still to come. After a lexical
fault it is the token before the fault that is still to come, while places are given by the
lexer, which stands at the fault.
-/

namespace ResourceQuery

set_option autoImplicit false

/-- A token, the text at its place and the offset of that text. -/
structure Lexeme where
  token : Token
  fragment : String
  offset : Nat
  deriving DecidableEq, Repr

/-- How the tokens of a clause build its tree: from the state `start`, through `step` for each
token, to a tree by `finish`. -/
structure Grammar (σ α : Type) where
  start : σ
  step : σ → Lexeme → Except Problem σ
  finish : σ → Except Problem α

/-- A lexer and the token that is to be looked at, which at the end of the text is `none`. -/
structure Parser where
  lexer : Lexer
  current : Option Token
  deriving DecidableEq, Repr

namespace Parser

def ofLexer (l : Lexer) : Except ParseError Parser :=
  match l.next with
  | (.ok current, l') => .ok ⟨l', current⟩
  | (.error e, _) => .error e.toParseError

def fragment (p : Parser) : String := p.lexer.slice p.lexer.tokenStart p.lexer.position

def offset (p : Parser) : Nat := p.lexer.tokenStart

/-- Where a problem lies: at the current place, but a namespace that does not close goes on to
the end of the text, and a sort key without a sign lies behind. -/
def locate (p : Parser) (problem : Problem) : ParseError :=
  match problem with
  | .unclosedSpace _ => ⟨problem, p.lexer.slice p.offset p.lexer.text.length, p.offset⟩
  | .undirected key offset => ⟨problem, key, offset⟩
  | _ => ⟨problem, p.fragment, p.offset⟩

/-- How much a parser has before it: the current token, and the text ahead of the lexer. -/
def pending (p : Parser) : Nat := p.lexer.remaining + if p.current.isSome then 1 else 0

theorem pending_lt_of_next {l l' : Lexer} {t : Token} {current : Option Token}
    (h : l.next = (.ok current, l')) :
    (Parser.mk l' current).pending < (Parser.mk l (some t)).pending := by
  cases current with
  | none =>
    have := Lexer.remaining_le_of_next h
    simp only [pending, Option.isSome]
    grind
  | some t' =>
    have := Lexer.remaining_lt_of_next h
    simp only [pending, Option.isSome]
    grind

/-- Reads a clause that has come as far as `s`, up to the end of the text. -/
def readFrom {σ α : Type} (g : Grammar σ α) (s : σ) : Parser → Except ParseError α × Parser
  | ⟨l, none⟩ => ((g.finish s).mapError (Parser.mk l none).locate, ⟨l, none⟩)
  | ⟨l, some t⟩ =>
    let p := Parser.mk l (some t)
    match g.step s ⟨t, p.fragment, p.offset⟩ with
    | .error problem => (.error (p.locate problem), p)
    | .ok s' =>
      match _h : l.next with
      | (.error e, l') => (.error e.toParseError, ⟨l', some t⟩)
      | (.ok current, l') => readFrom g s' ⟨l', current⟩
termination_by p => p.pending
decreasing_by exact pending_lt_of_next _h

def read {σ α : Type} (p : Parser) (g : Grammar σ α) : Except ParseError α × Parser :=
  p.readFrom g g.start

end Parser

def Grammar.parse {σ α : Type} (g : Grammar σ α) (text : String) : Except ParseError α :=
  match Parser.ofLexer (Lexer.ofString text) with
  | .error e => .error e
  | .ok p => (p.read g).1

end ResourceQuery
