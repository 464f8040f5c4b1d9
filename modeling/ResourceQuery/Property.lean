import ResourceQuery.Name

/-!
# Property lists

A select clause is a list of properties of a resource. Each is named, or is the wildcard that
stands for all, and braces after it list properties of the resources that are its values.
-/

namespace ResourceQuery

set_option autoImplicit false

inductive Property where
  | named (name : QualifiedName)
  | wildcard
  | nested (name : QualifiedName) (children : List Property)
  | nestedWildcard (children : List Property)

namespace Property

def isWildcard : Property → Bool
  | wildcard | nestedWildcard _ => true
  | named _ | nested _ _ => false

def name? : Property → Option QualifiedName
  | named name | nested name _ => some name
  | wildcard | nestedWildcard _ => none

def children? : Property → Option (List Property)
  | nested _ children | nestedWildcard children => some children
  | named _ | wildcard => none

mutual

/-- Whether two properties are the same, with names compared by what they name. -/
def agrees : Property → Property → Bool
  | named m, named n => m.agrees n
  | wildcard, wildcard => true
  | nested m ps, nested n qs => m.agrees n && allAgree ps qs
  | nestedWildcard ps, nestedWildcard qs => allAgree ps qs
  | _, _ => false

def allAgree : List Property → List Property → Bool
  | [], [] => true
  | p :: ps, q :: qs => p.agrees q && allAgree ps qs
  | _, _ => false

end

mutual

def text : Property → String
  | named name => name.text
  | wildcard => "*"
  | nested name children => name.text ++ "\x7b" ++ ",".intercalate (texts children) ++ "\x7d"
  | nestedWildcard children => "*\x7b" ++ ",".intercalate (texts children) ++ "\x7d"

def texts : List Property → List String
  | [] => []
  | p :: ps => p.text :: texts ps

end

theorem texts_eq_map (ps : List Property) : texts ps = ps.map text := by
  induction ps with
  | nil => rfl
  | cons p ps ih => simp [texts, ih]

def clauseText (properties : List Property) : String := ",".intercalate (texts properties)

end Property

end ResourceQuery
