import ResourceQuery.Inspection
import ResourceQuery.PrefixMap.Grammar
import ResourceQuery.Property.Grammar
import ResourceQuery.SearchTerms
import ResourceQuery.Selection.Inversion
import ResourceQuery.SortKey.Grammar
import ResourceQuery.Term.Grammar

/-!
# The query of a request

A request carries its clauses as parameters, of which each is optional. Of a parameter that is
given more than once the last value counts. The prefixes are read first and hold in all the
other clauses; the first clause that fails is reported, in the order of the fields.
-/

namespace ResourceQuery

set_option autoImplicit false

inductive Clause where
  | prefixes | condition | select | properties | orderBy | searchTerms
  deriving DecidableEq, Repr

/-- The name of the parameter that carries a clause. -/
def Clause.parameter : Clause → String
  | prefixes => "oslc.prefix"
  | condition => "oslc.where"
  | select => "oslc.select"
  | properties => "oslc.properties"
  | orderBy => "oslc.orderBy"
  | searchTerms => "oslc.searchTerms"

/-- The clause that a parameter carries. -/
def Clause.ofParameter? : String → Option Clause
  | "oslc.prefix" => some prefixes
  | "oslc.where" => some condition
  | "oslc.select" => some select
  | "oslc.properties" => some properties
  | "oslc.orderBy" => some orderBy
  | "oslc.searchTerms" => some searchTerms
  | _ => none

/-- The clauses of a request as texts. -/
structure Request where
  prefixes : Option String
  condition : Option String
  select : Option String
  properties : Option String
  orderBy : Option String
  searchTerms : Option String
  deriving DecidableEq, Repr

structure Query where
  prefixes : PrefixMap
  condition : Option (List Term)
  select : Option (List Property)
  properties : Option (List Property)
  orderBy : Option (List SortKey)
  searchTerms : Option (List String)

namespace Request

def empty : Request := ⟨none, none, none, none, none, none⟩

/-- Assigns a text to a clause, in place of the one that it has had. -/
def assign (r : Request) (text : String) : Clause → Request
  | .prefixes => { r with prefixes := some text }
  | .condition => { r with condition := some text }
  | .select => { r with select := some text }
  | .properties => { r with properties := some text }
  | .orderBy => { r with orderBy := some text }
  | .searchTerms => { r with searchTerms := some text }

/-- Takes one parameter. A parameter that carries no clause is passed over. -/
def addPair (r : Request) (pair : String × String) : Request :=
  match Clause.ofParameter? pair.1 with
  | some clause => r.assign pair.2 clause
  | none => r

/-- The clauses among the parameters of a request. -/
def ofPairs (pairs : List (String × String)) : Request := pairs.foldl addPair .empty

def readIfGiven {α : Type} (parse : String → Except ParseError α) :
    Option String → Except ParseError (Option α)
  | none => .ok none
  | some text => (parse text).map some

def parse (r : Request) : Except ParseError Query := do
  let prefixes := (← readIfGiven PrefixMap.parse r.prefixes).getD .empty
  let condition ← readIfGiven (Term.parse prefixes) r.condition
  let select ← readIfGiven (Property.parse prefixes) r.select
  let properties ← readIfGiven (Property.parse prefixes) r.properties
  let orderBy ← readIfGiven (SortKey.parse prefixes) r.orderBy
  let searchTerms ← readIfGiven SearchTerms.parse r.searchTerms
  return { prefixes, condition, select, properties, orderBy, searchTerms }

end Request

namespace Query

/-- The property list that says what is shown: the properties clause, or else the select
clause, or else all properties. -/
def shown (q : Query) : List Property := (q.properties.or q.select).getD [.wildcard]

def selection (q : Query) : Selection := .ofProperties q.shown

/-- A query as JSON, without the clauses that it does not have. -/
def toJson (q : Query) : Json :=
  .object <| ("prefixes", q.prefixes.toJson) :: List.flatten
    [(q.condition.map fun terms => ("where", .array (Term.toJsons terms))).toList,
      (q.select.map fun list => ("select", .array (Property.toJsons list))).toList,
      (q.properties.map fun list => ("properties", .array (Property.toJsons list))).toList,
      (q.orderBy.map fun keys => ("orderBy", .array (SortKey.toJsons keys))).toList,
      (q.searchTerms.map fun phrases => ("searchTerms", SearchTerms.toJson phrases)).toList]

end Query

end ResourceQuery
