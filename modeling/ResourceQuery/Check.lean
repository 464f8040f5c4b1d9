import ResourceQuery.Request

/-!
# Checking one clause

Reads one clause, under prefixes that may be given with it, and shows its tree, or for a
property list the selection that it asks for.
-/

namespace ResourceQuery

set_option autoImplicit false

def Clause.isPropertyList : Clause → Bool
  | .select | .properties => true
  | _ => false

/-- The clause that a command names. Names of two words have two spellings. -/
def Clause.ofName? : String → Option Clause
  | "prefix" => some .prefixes
  | "where" => some .condition
  | "select" => some .select
  | "properties" => some .properties
  | "order-by" | "orderBy" => some .orderBy
  | "search-terms" | "searchTerms" => some .searchTerms
  | _ => none

inductive Failure where
  | parse (error : ParseError)
  | notInvertible (clause : Clause)
  | unknownTopic (name : String)
  | notText
  deriving DecidableEq, Repr

def Failure.message : Failure → String
  | parse error => "Parse error: " ++ error.text
  | notInvertible clause =>
    "--invert only applies to select and properties clauses, not " ++ clause.parameter
  | unknownTopic name =>
    "Unknown topic: '" ++ name ++ "'\nRun 'oslcq docs' to see available topics."
  | notText => "IO error: stream did not contain valid UTF-8"

/-- What is checked, and what is shown of it. -/
structure Check where
  clause : Clause
  expression : String
  prefixes : Option String
  pretty : Bool
  invert : Bool
  syntaxOnly : Bool
  deriving DecidableEq, Repr

namespace Check

/-- The clause as JSON. The prefixes are read first, also where the clause has no names. -/
def tree (c : Check) : Except ParseError Json := do
  let prefixes := (← Request.readIfGiven PrefixMap.parse c.prefixes).getD .empty
  match c.clause with
  | .prefixes => return (← PrefixMap.parse c.expression).toJson
  | .condition => return .array (Term.toJsons (← Term.parse prefixes c.expression))
  | .select | .properties =>
    let properties ← Property.parse prefixes c.expression
    return if c.invert then (Selection.ofProperties properties).toJson
      else .array (Property.toJsons properties)
  | .orderBy => return .array (SortKey.toJsons (← SortKey.parse prefixes c.expression))
  | .searchTerms => return SearchTerms.toJson (← SearchTerms.parse c.expression)

/-- The clause as JSON, or `none` if only its syntax is of interest. -/
def run (c : Check) : Except Failure (Option Json) :=
  if c.invert && !c.clause.isPropertyList then .error (.notInvertible c.clause)
  else
    match c.tree with
    | .ok tree => .ok (if c.syntaxOnly then none else some tree)
    | .error e => .error (.parse e)

def render (c : Check) (tree : Json) : String := if c.pretty then tree.pretty else tree.compact

end Check

end ResourceQuery
