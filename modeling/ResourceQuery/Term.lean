import ResourceQuery.Token
import ResourceQuery.Value

/-!
# Conditions on resources

A where clause is a list of terms that all have to hold. A term compares a property with an
operand, asks whether its value is among some operands, or puts conditions on the resource
that is its value.
-/

namespace ResourceQuery

set_option autoImplicit false

inductive Term where
  | comparison (property : QualifiedName) (relation : Comparison) (operand : Value)
  | membership (property : QualifiedName) (operands : List Value)
  | nested (property : QualifiedName) (terms : List Term)

namespace Term

def property : Term → QualifiedName
  | comparison property _ _ | membership property _ | nested property _ => property

def operand? : Term → Option Value
  | comparison _ _ operand => some operand
  | _ => none

mutual

/-- Whether two terms say the same, with names and operands compared by what they mean. -/
def agrees : Term → Term → Bool
  | comparison p r v, comparison q s w => p.agrees q && r == s && v.agrees w
  | membership p vs, membership q ws =>
    p.agrees q && vs.length == ws.length && (vs.zip ws).all fun (v, w) => v.agrees w
  | nested p ts, nested q us => p.agrees q && allAgree ts us
  | _, _ => false

def allAgree : List Term → List Term → Bool
  | [], [] => true
  | t :: ts, u :: us => t.agrees u && allAgree ts us
  | _, _ => false

end

mutual

/-- A term as it is written, with nothing between the parts of a comparison. -/
def text : Term → String
  | comparison property relation operand => property.text ++ relation.text ++ operand.text
  | membership property operands =>
    property.text ++ " in [" ++ ",".intercalate (operands.map Value.text) ++ "]"
  | nested property terms => property.text ++ "\x7b" ++ " and ".intercalate (texts terms) ++ "\x7d"

def texts : List Term → List String
  | [] => []
  | t :: ts => t.text :: texts ts

end

theorem texts_eq_map (ts : List Term) : texts ts = ts.map text := by
  induction ts with
  | nil => rfl
  | cons t ts ih => simp [texts, ih]

def clauseText (terms : List Term) : String := " and ".intercalate (texts terms)

end Term

end ResourceQuery
