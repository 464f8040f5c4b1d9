import ResourceQuery.Parser

/-!
# Search terms

A full text search asks for one or more phrases, each quoted, with commas between them:

    clause ::= string (',' string)*

The body of a phrase is kept as it was written, escapes included.
-/

namespace ResourceQuery.SearchTerms

set_option autoImplicit false

def clauseText (phrases : List String) : String :=
  ",".intercalate (phrases.map fun body => "\"" ++ body ++ "\"")

/-- What comes next in a search clause. -/
inductive Expects where
  | phrases
  | phrase
  | separator
  deriving DecidableEq, Repr

/-- A search clause that is being read; the latest phrase stands first. -/
structure Draft where
  phrases : List String
  expects : Expects
  deriving DecidableEq, Repr

namespace Draft

def step (d : Draft) (found : Token) : Except Problem Draft :=
  match d.expects with
  | .phrases | .phrase =>
    match found with
    | .quoted body => .ok ⟨body :: d.phrases, .separator⟩
    | _ => .error (.expected .phrase (some found))
  | .separator =>
    match found with
    | .mark .comma => .ok { d with expects := .phrase }
    | _ => .error (.trailing found)

def finish (d : Draft) : Except Problem (List String) :=
  match d.expects with
  | .phrases => .error .noPhrases
  | .phrase => .error (.expected .phrase none)
  | .separator => .ok d.phrases.reverse

end Draft

def grammar : Grammar Draft (List String) where
  start := ⟨[], .phrases⟩
  step d lexeme := d.step lexeme.token
  finish := Draft.finish

def parse (text : String) : Except ParseError (List String) := grammar.parse text

end ResourceQuery.SearchTerms
