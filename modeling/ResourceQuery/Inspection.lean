import ResourceQuery.Json
import ResourceQuery.PrefixMap
import ResourceQuery.Property
import ResourceQuery.Selection
import ResourceQuery.SortKey
import ResourceQuery.Term

/-!
# Clauses as JSON

How parsed clauses and selections are shown for inspection. A decimal is shown as a string, so
that its scale is seen, and a name both as it was written and as the URI it stands for.
-/

namespace ResourceQuery

set_option autoImplicit false

def QualifiedName.toJson (n : QualifiedName) : Json :=
  .object [("name", .string n.text), ("uri", .string n.uri)]

def Value.toJson (v : Value) : Json :=
  let content : List (String × Json) :=
    match v with
    | .uri reference => [("value", .string reference)]
    | .boolean b => [("value", .bool b)]
    | .decimal d => [("value", .string d.text)]
    | .string body => [("value", .string body)]
    | .typed body datatype => [("value", .string body), ("datatype", datatype.toJson)]
    | .tagged body language => [("value", .string body), ("language", .string language)]
  .object (("type", .string v.typeName) :: content)

mutual

def Term.toJson : Term → Json
  | .comparison property relation operand =>
    .object [("kind", .string "comparison"), ("property", property.toJson),
      ("operator", .string relation.text), ("operand", operand.toJson)]
  | .membership property operands =>
    .object [("kind", .string "in"), ("property", property.toJson),
      ("operands", .array (operands.map Value.toJson))]
  | .nested property terms =>
    .object [("kind", .string "nested"), ("property", property.toJson),
      ("terms", .array (Term.toJsons terms))]

def Term.toJsons : List Term → List Json
  | [] => []
  | t :: ts => t.toJson :: Term.toJsons ts

end

mutual

def Property.toJson : Property → Json
  | .named name => .object [("kind", .string "identifier"), ("property", name.toJson)]
  | .wildcard => .object [("kind", .string "wildcard")]
  | .nested name children =>
    .object [("kind", .string "nested_identifier"), ("property", name.toJson),
      ("children", .array (Property.toJsons children))]
  | .nestedWildcard children =>
    .object [("kind", .string "nested_wildcard"),
      ("children", .array (Property.toJsons children))]

def Property.toJsons : List Property → List Json
  | [] => []
  | p :: ps => p.toJson :: Property.toJsons ps

end

def Direction.word : Direction → String
  | ascending => "ascending"
  | descending => "descending"

mutual

def SortKey.toJson : SortKey → Json
  | .key direction property =>
    .object [("direction", .string direction.word), ("property", property.toJson)]
  | .group direction property keys =>
    .object [("direction", .string direction.word), ("property", property.toJson),
      ("nested", .array (SortKey.toJsons keys))]

def SortKey.toJsons : List SortKey → List Json
  | [] => []
  | k :: ks => k.toJson :: SortKey.toJsons ks

end

def PrefixMap.toJson (m : PrefixMap) : Json :=
  .object (m.pairs.map fun p => (p.1, .string p.2))

def SearchTerms.toJson (phrases : List String) : Json := .array (phrases.map .string)

mutual

/-- A selection as JSON: a choice is `true` where nothing is nested, and there is no wildcard
where it is `null`. -/
def Selection.toJson : Selection → Json
  | .mk entries wildcard =>
    .object [("properties", .object (Choice.toMembers entries)),
      ("wildcard", Choice.wildcardToJson wildcard)]

def Choice.toJson : Choice → Json
  | .plain => .bool true
  | .nested inner => inner.toJson

def Choice.toMembers : List (String × Choice) → List (String × Json)
  | [] => []
  | e :: es => Choice.toMember e :: Choice.toMembers es

def Choice.toMember : String × Choice → String × Json
  | (uri, c) => (uri, c.toJson)

def Choice.wildcardToJson : Option Choice → Json
  | none => .null
  | some c => c.toJson

end

end ResourceQuery
