import ResourceQuery.Parser
import ResourceQuery.PrefixMap

/-!
# The grammar of prefix clauses

    clause     ::= empty | definition (',' definition)*
    definition ::= name '=' uri

A reserved word is a name here. In the other clauses a prefixed name means a qualified name if its
prefix is bound.
-/

namespace ResourceQuery.PrefixMap

set_option autoImplicit false

/-- What comes next in a prefix clause. -/
inductive Expects where
  | definitions
  | definition
  | equals (pfx : String)
  | space (pfx : String)
  | separator
  deriving DecidableEq, Repr

/-- A prefix clause that is being read. -/
structure Draft where
  bound : PrefixMap
  expects : Expects
  deriving DecidableEq

namespace Draft

def step (d : Draft) (found : Token) : Except Problem Draft :=
  match d.expects with
  | .definitions | .definition =>
    match found.asName? with
    | some pfx => .ok { d with expects := .equals pfx }
    | none => .error (.expected .prefixName (some found))
  | .equals pfx =>
    match found with
    | .comparison .eq => .ok { d with expects := .space pfx }
    | _ => .error (.expected .equals (some found))
  | .space pfx =>
    match found with
    | .uri reference => .ok ⟨d.bound.insert pfx reference, .separator⟩
    | .comparison .lt => .error (.unclosedSpace pfx)
    | _ => .error (.expected .spaceUri (some found))
  | .separator =>
    match found with
    | .mark .comma => .ok { d with expects := .definition }
    | _ => .error (.trailing found)

def finish (d : Draft) : Except Problem PrefixMap :=
  match d.expects with
  | .definitions | .separator => .ok d.bound
  | .definition => .error (.expected .prefixName none)
  | .equals _ => .error (.expected .equals none)
  | .space _ => .error (.expected .spaceUri none)

end Draft

def grammar : Grammar Draft PrefixMap where
  start := ⟨.empty, .definitions⟩
  step d lexeme := d.step lexeme.token
  finish := Draft.finish

def parse (text : String) : Except ParseError PrefixMap := grammar.parse text

/-- The name that a token means where a name of the sort `wanted` is to come. -/
def qualify (m : PrefixMap) (wanted : Expectation) : Token → Except Problem QualifiedName
  | .prefixed pfx localName =>
    match m.resolve pfx with
    | some space => .ok ⟨space, localName, some pfx⟩
    | none => .error (.unresolved pfx localName)
  | found => .error (.expected wanted (some found))

end ResourceQuery.PrefixMap
