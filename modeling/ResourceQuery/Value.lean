import ResourceQuery.Decimal
import ResourceQuery.Name

/-!
# Operand values

What a property is compared with. The body of a string is kept as it was written, escapes
included.
-/

namespace ResourceQuery

set_option autoImplicit false

inductive Value where
  | uri (reference : String)
  | boolean (value : Bool)
  | decimal (value : Decimal)
  | string (body : String)
  | typed (body : String) (datatype : QualifiedName)
  | tagged (body language : String)
  deriving DecidableEq

namespace Value

/-- Whether two values are equal, decimals by their value and datatypes by what they name. -/
def agrees : Value → Value → Bool
  | uri u, uri v => u == v
  | boolean a, boolean b => a == b
  | decimal a, decimal b => a.agrees b
  | string s, string t => s == t
  | typed s m, typed t n => s == t && m.agrees n
  | tagged s l, tagged t m => s == t && l == m
  | _, _ => false

def typeName : Value → String
  | uri _ => "uri_ref"
  | boolean _ => "boolean"
  | decimal _ => "decimal"
  | string _ => "string"
  | typed _ _ => "typed_string"
  | tagged _ _ => "lang_string"

def body? : Value → Option String
  | string body | typed body _ | tagged body _ => some body
  | _ => none

def text : Value → String
  | uri reference => "<" ++ reference ++ ">"
  | boolean true => "true"
  | boolean false => "false"
  | decimal d => d.text
  | string body => "\"" ++ body ++ "\""
  | typed body datatype => "\"" ++ body ++ "\"^^" ++ datatype.text
  | tagged body language => "\"" ++ body ++ "\"@" ++ language

end Value

end ResourceQuery
