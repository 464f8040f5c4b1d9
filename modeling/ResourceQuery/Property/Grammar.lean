import ResourceQuery.PrefixMap.Grammar
import ResourceQuery.Property

/-!
# The grammar of select clauses

    clause   ::= property (',' property)*
    property ::= ('*' | name) ('{' clause '}')?

A property list that is asked for by `oslc.properties` has the same grammar.
-/

namespace ResourceQuery.Property

set_option autoImplicit false

/-- What a property stands for before its braces are seen: `none` is the wildcard. -/
abbrev Head := Option QualifiedName

def Head.alone : Head → Property
  | some name => .named name
  | none => .wildcard

def Head.withBlock (children : List Property) : Head → Property
  | some name => .nested name children
  | none => .nestedWildcard children

/-- What comes next in a select clause. -/
inductive Expects where
  | property
  | block (head : Head)
  | separator
  deriving DecidableEq, Repr

/-- A select clause that is being read: the open blocks, each with what it belongs to and the
properties before that, the properties of the innermost block, and what comes next. The latest
stands first. -/
structure Draft where
  enclosing : List (Head × List Property)
  properties : List Property
  expects : Expects

namespace Draft

/-- A property that turned out to have no braces. -/
def settle (d : Draft) (head : Head) : Draft :=
  { d with properties := head.alone :: d.properties, expects := .separator }

def afterProperty (d : Draft) (found : Token) : Except Problem Draft :=
  match found, d.enclosing with
  | .mark .comma, _ => .ok { d with expects := .property }
  | .mark .closeBrace, (head, earlier) :: outer =>
    .ok ⟨outer, head.withBlock d.properties.reverse :: earlier, .separator⟩
  | _, [] => .error (.trailing found)
  | _, _ :: _ => .error (.expected .closeBrace (some found))

def step (names : PrefixMap) (d : Draft) (found : Token) : Except Problem Draft :=
  match d.expects with
  | .property =>
    match found with
    | .mark .star => .ok { d with expects := .block none }
    | _ =>
      match names.qualify .property found with
      | .ok name => .ok { d with expects := .block (some name) }
      | .error problem => .error problem
  | .block head =>
    match found with
    | .mark .openBrace => .ok ⟨(head, d.properties) :: d.enclosing, [], .property⟩
    | _ => (d.settle head).afterProperty found
  | .separator => d.afterProperty found

def finishProperty (d : Draft) : Except Problem (List Property) :=
  match d.enclosing with
  | [] => .ok d.properties.reverse
  | _ :: _ => .error (.expected .closeBrace none)

def finish (d : Draft) : Except Problem (List Property) :=
  match d.expects with
  | .property => .error (.expected .property none)
  | .block head => (d.settle head).finishProperty
  | .separator => d.finishProperty

end Draft

def grammar (names : PrefixMap) : Grammar Draft (List Property) where
  start := ⟨[], [], .property⟩
  step d lexeme := d.step names lexeme.token
  finish := Draft.finish

def parse (names : PrefixMap) (text : String) : Except ParseError (List Property) :=
  (grammar names).parse text

end ResourceQuery.Property
