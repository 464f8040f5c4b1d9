import ResourceQuery.Text.Classes

/-!
# Tokens

The words that query clauses are made of, and how each is spelled. `Token.text` is the only
spelling of a token: a string keeps its escapes and a number its digits, so nothing of the
written form is lost but the blanks between tokens.
-/

namespace ResourceQuery

set_option autoImplicit false

inductive Comparison where
  | eq | ne | lt | gt | le | ge
  deriving DecidableEq, Repr

def Comparison.text : Comparison → String
  | eq => "="
  | ne => "!="
  | lt => "<"
  | gt => ">"
  | le => "<="
  | ge => ">="

/-- The words and signs of the grammars that stand for themselves. -/
inductive Mark where
  | conjunction | membership
  | openBrace | closeBrace | openBracket | closeBracket
  | comma | plus | minus | star | datatype
  deriving DecidableEq, Repr

def Mark.text : Mark → String
  | conjunction => "and"
  | membership => "in"
  | openBrace => "\x7b"
  | closeBrace => "\x7d"
  | openBracket => "["
  | closeBracket => "]"
  | comma => ","
  | plus => "+"
  | minus => "-"
  | star => "*"
  | datatype => "^^"

/-- A token; the end of a clause is not one. -/
inductive Token where
  | prefixed (pfx localName : String)
  | name (word : String)
  | uri (reference : String)
  | quoted (body : String)
  | number (digits : String)
  | boolean (value : Bool)
  | language (tag : String)
  | comparison (relation : Comparison)
  | mark (mark : Mark)
  deriving DecidableEq, Repr

namespace Token

def text : Token → String
  | prefixed pfx localName => pfx ++ ":" ++ localName
  | name word => word
  | uri reference => "<" ++ reference ++ ">"
  | quoted body => "\"" ++ body ++ "\""
  | number digits => digits
  | boolean true => "true"
  | boolean false => "false"
  | language tag => "@" ++ tag
  | comparison relation => relation.text
  | mark m => m.text

/-- The token as a name, which a reserved word is too where only a name can stand. -/
def asName? : Token → Option String
  | name word => some word
  | mark .conjunction => some "and"
  | mark .membership => some "in"
  | boolean true => some "true"
  | boolean false => some "false"
  | _ => none

/-- The token a bare word is: one of the four reserved words, or a name. -/
def ofWord (word : String) : Token :=
  if word = "and" then mark .conjunction
  else if word = "in" then mark .membership
  else if word = "true" then boolean true
  else if word = "false" then boolean false
  else name word

theorem text_ofWord (word : String) : (ofWord word).text = word := by
  unfold ofWord
  split
  · simp_all [text, Mark.text]
  · split
    · simp_all [text, Mark.text]
    · split
      · simp_all [text]
      · split <;> simp_all [text]

end Token

def isNameStart (c : Char) : Bool := Text.isAlphabetic c || c == '_'

/-- A character that a name may hold. A full stop may not be its last one. -/
def isNameChar (c : Char) : Bool :=
  Text.isAlphabetic c || Text.isNumeric c || c == '_' || c == '-' || c == '.'

/-- A character that a URI reference may hold: none up to the space, and none that delimits. -/
def isUriChar (c : Char) : Bool :=
  decide (' ' < c) && !(['<', '>', '"', '{', '}', '|', '^', '\x60', '\\'].contains c)

theorem isNameChar_of_isNameStart {c : Char} (h : isNameStart c = true) :
    isNameChar c = true := by
  simp only [isNameStart, isNameChar, Bool.or_eq_true] at *
  rcases h with h | h <;> simp [h]

end ResourceQuery
