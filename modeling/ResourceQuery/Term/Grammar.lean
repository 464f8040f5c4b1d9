import ResourceQuery.PrefixMap.Grammar
import ResourceQuery.Term

/-!
# The grammar of where clauses

    clause ::= term ('and' term)*
    term   ::= name comparison value | name 'in' '[' value (',' value)* ']' | name '{' clause '}'
    value  ::= uri | boolean | ('+' | '-')? number | string ('^^' name | '@' language)?

A draft keeps the blocks that are open around the place that has been reached. A string may be
annotated, so it becomes a value only when the token after it is seen.
-/

namespace ResourceQuery.Term

set_option autoImplicit false

/-- Where an operand goes: into a comparison, or into a list after the operands before it, of
which the latest stands first. -/
inductive Slot where
  | comparison (property : QualifiedName) (relation : Comparison)
  | membership (property : QualifiedName) (earlier : List Value)
  deriving DecidableEq

/-- What comes next in a where clause. -/
inductive Expects where
  | term
  | operator (property : QualifiedName)
  | list (property : QualifiedName)
  | operand (slot : Slot)
  | magnitude (slot : Slot) (negative : Bool)
  | qualifier (slot : Slot) (body : String)
  | datatype (slot : Slot) (body : String)
  | separator (property : QualifiedName) (operands : List Value)
  | conjunction
  deriving DecidableEq

/-- A where clause that is being read: the open blocks, each with its property and the terms
before it, the terms of the innermost block, and what comes next. The latest stands first. -/
structure Draft where
  enclosing : List (QualifiedName × List Term)
  terms : List Term
  expects : Expects

namespace Draft

def await (d : Draft) (expects : Expects) : Except Problem Draft := .ok { d with expects }

def place (d : Draft) (v : Value) : Slot → Draft
  | .comparison property relation =>
    { d with terms := .comparison property relation v :: d.terms, expects := .conjunction }
  | .membership property earlier => { d with expects := .separator property (v :: earlier) }

def placeNumber (d : Draft) (slot : Slot) (negative : Bool) (digits : String) :
    Except Problem Draft :=
  match Decimal.ofDigits negative digits.toList with
  | .ok value => .ok (d.place (.decimal value) slot)
  | .error reason => .error (.misfit negative digits reason)

/-- A token where an operand begins. -/
def beginOperand (d : Draft) (slot : Slot) (found : Token) : Except Problem Draft :=
  match found with
  | .uri reference => .ok (d.place (.uri reference) slot)
  | .boolean value => .ok (d.place (.boolean value) slot)
  | .mark .plus => d.await (.magnitude slot false)
  | .mark .minus => d.await (.magnitude slot true)
  | .number digits => d.placeNumber slot false digits
  | .quoted body => d.await (.qualifier slot body)
  | .comparison .lt => .error .unclosedUri
  | .mark .closeBracket =>
    match slot with
    | .membership _ [] => .error .emptyList
    | _ => .error (.expected .literal (some found))
  | _ => .error (.expected .literal (some found))

/-- A token after an operand of a list. -/
def afterOperand (d : Draft) (property : QualifiedName) (operands : List Value) (found : Token) :
    Except Problem Draft :=
  match found with
  | .mark .comma => d.await (.operand (.membership property operands))
  | .mark .closeBracket =>
    let term : Term := .membership property operands.reverse
    .ok { d with terms := term :: d.terms, expects := .conjunction }
  | _ => .error (.expected .closeBracket (some found))

def afterTerm (d : Draft) (found : Token) : Except Problem Draft :=
  match found, d.enclosing with
  | .mark .conjunction, _ => d.await .term
  | .mark .closeBrace, (property, earlier) :: outer =>
    .ok ⟨outer, .nested property d.terms.reverse :: earlier, .conjunction⟩
  | _, [] => .error (.trailing found)
  | _, _ :: _ => .error (.expected .closeBrace (some found))

/-- A token after an operand, of a comparison or of a list. -/
def afterPlace (d : Draft) (found : Token) : Except Problem Draft :=
  match d.expects with
  | .separator property operands => d.afterOperand property operands found
  | _ => d.afterTerm found

def step (names : PrefixMap) (d : Draft) (found : Token) : Except Problem Draft :=
  match d.expects with
  | .term =>
    match names.qualify .whereTerm found with
    | .ok property => d.await (.operator property)
    | .error problem => .error problem
  | .operator property =>
    match found with
    | .comparison relation => d.await (.operand (.comparison property relation))
    | .mark .membership => d.await (.list property)
    | .mark .openBrace => .ok ⟨(property, d.terms) :: d.enclosing, [], .term⟩
    | _ => .error (.expected .operator (some found))
  | .list property =>
    match found with
    | .mark .openBracket => d.await (.operand (.membership property []))
    | _ => .error (.expected .openBracket (some found))
  | .operand slot => d.beginOperand slot found
  | .magnitude slot negative =>
    match found with
    | .number digits => d.placeNumber slot negative digits
    | _ => .error (.expected .signedNumber (some found))
  | .qualifier slot body =>
    match found with
    | .mark .datatype => d.await (.datatype slot body)
    | .language tag => .ok (d.place (.tagged body tag) slot)
    | _ => (d.place (.string body) slot).afterPlace found
  | .datatype slot body =>
    match names.qualify .datatype found with
    | .ok datatype => .ok (d.place (.typed body datatype) slot)
    | .error problem => .error problem
  | .separator property operands => d.afterOperand property operands found
  | .conjunction => d.afterTerm found

def finishPlaced (d : Draft) : Except Problem (List Term) :=
  match d.expects, d.enclosing with
  | .separator _ _, _ => .error .unclosedList
  | _, [] => .ok d.terms.reverse
  | _, _ :: _ => .error (.expected .closeBrace none)

def finish (d : Draft) : Except Problem (List Term) :=
  match d.expects with
  | .term => .error (.expected .whereTerm none)
  | .operator _ => .error (.expected .operator none)
  | .list _ => .error (.expected .openBracket none)
  | .operand _ => .error (.expected .literal none)
  | .magnitude _ _ => .error (.expected .signedNumber none)
  | .datatype _ _ => .error (.expected .datatype none)
  | .qualifier slot body => (d.place (.string body) slot).finishPlaced
  | .separator _ _ | .conjunction => d.finishPlaced

end Draft

def grammar (names : PrefixMap) : Grammar Draft (List Term) where
  start := ⟨[], [], .term⟩
  step d lexeme := d.step names lexeme.token
  finish := Draft.finish

def parse (names : PrefixMap) (text : String) : Except ParseError (List Term) :=
  (grammar names).parse text

end ResourceQuery.Term
