import ResourceQuery.PrefixMap.Grammar
import ResourceQuery.SortKey

/-!
# The grammar of order clauses

    clause ::= key (',' key)*
    key    ::= ('+' | '-') name ('{' clause '}')? | name '{' clause '}'

A group without a sign is ascending. A key without a sign and without braces has no direction,
which the token after it shows; the key is reported and not that token.
-/

namespace ResourceQuery.SortKey

set_option autoImplicit false

/-- What comes next in an order clause. -/
inductive Expects where
  | key
  | property (direction : Direction)
  | block (direction : Direction) (property : QualifiedName)
  | group (property : QualifiedName) (written : String) (offset : Nat)
  | separator
  deriving DecidableEq, Repr

/-- An order clause that is being read: the open groups, each with its direction, its property
and the keys before it, the keys of the innermost group, and what comes next. The latest stands
first. -/
structure Draft where
  enclosing : List (Direction × QualifiedName × List SortKey)
  keys : List SortKey
  expects : Expects

namespace Draft

/-- A signed key that turned out to have no braces. -/
def settle (d : Draft) (direction : Direction) (property : QualifiedName) : Draft :=
  { d with keys := .key direction property :: d.keys, expects := .separator }

/-- Opens the braces of a group. -/
def descend (d : Draft) (direction : Direction) (property : QualifiedName) : Draft :=
  ⟨(direction, property, d.keys) :: d.enclosing, [], .key⟩

def afterKey (d : Draft) (found : Token) : Except Problem Draft :=
  match found, d.enclosing with
  | .mark .comma, _ => .ok { d with expects := .key }
  | .mark .closeBrace, (direction, property, earlier) :: outer =>
    .ok ⟨outer, .group direction property d.keys.reverse :: earlier, .separator⟩
  | _, [] => .error (.trailing found)
  | _, _ :: _ => .error (.expected .closeBrace (some found))

def step (names : PrefixMap) (d : Draft) (lexeme : Lexeme) : Except Problem Draft :=
  match d.expects with
  | .key =>
    match lexeme.token with
    | .mark .plus => .ok { d with expects := .property .ascending }
    | .mark .minus => .ok { d with expects := .property .descending }
    | found =>
      match names.qualify .sortKey found with
      | .ok property => .ok { d with expects := .group property lexeme.fragment lexeme.offset }
      | .error problem => .error problem
  | .property direction =>
    match names.qualify .sortKey lexeme.token with
    | .ok property => .ok { d with expects := .block direction property }
    | .error problem => .error problem
  | .block direction property =>
    match lexeme.token with
    | .mark .openBrace => .ok (d.descend direction property)
    | found => (d.settle direction property).afterKey found
  | .group property written offset =>
    match lexeme.token with
    | .mark .openBrace => .ok (d.descend .ascending property)
    | _ => .error (.undirected written offset)
  | .separator => d.afterKey lexeme.token

def finishKey (d : Draft) : Except Problem (List SortKey) :=
  match d.enclosing with
  | [] => .ok d.keys.reverse
  | _ :: _ => .error (.expected .closeBrace none)

def finish (d : Draft) : Except Problem (List SortKey) :=
  match d.expects with
  | .key | .property _ => .error (.expected .sortKey none)
  | .block direction property => (d.settle direction property).finishKey
  | .group _ written offset => .error (.undirected written offset)
  | .separator => d.finishKey

end Draft

def grammar (names : PrefixMap) : Grammar Draft (List SortKey) where
  start := ⟨[], [], .key⟩
  step := Draft.step names
  finish := Draft.finish

def parse (names : PrefixMap) (text : String) : Except ParseError (List SortKey) :=
  (grammar names).parse text

end ResourceQuery.SortKey
