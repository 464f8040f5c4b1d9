import ResourceQuery.Decimal
import ResourceQuery.Lexer

/-!
# Parse errors

Why a text is no clause, and where. A `Problem` is the reason; `ParseError` adds the text it
concerns and the offset of that text. All wording is in `Problem.message`.
-/

namespace ResourceQuery

set_option autoImplicit false

/-- What could have come next. -/
inductive Expectation where
  | prefixName | equals | spaceUri
  | whereTerm | operator | openBracket | closeBracket | closeBrace
  | literal | signedNumber | datatype
  | property | sortKey | phrase
  deriving DecidableEq, Repr

def Expectation.text : Expectation → String
  | prefixName => "a prefix name"
  | equals => "'='"
  | spaceUri => "a namespace URI in angle brackets"
  | whereTerm => "a where-clause term"
  | operator => "a comparison operator, 'in' or '\x7b'"
  | openBracket => "'['"
  | closeBracket => "']'"
  | closeBrace => "'\x7d'"
  | literal => "a literal value"
  | signedNumber => "a number after the sign"
  | datatype => "a datatype name after '^^'"
  | property => "a property name or '*'"
  | sortKey => "a sort key such as '+prefix:name'"
  | phrase => "a quoted search phrase"

/-- Why a text is no clause. -/
inductive Problem where
  | lexical (fault : LexicalFault)
  /-- Something else was to come; `none` is the end of the text. -/
  | expected (what : Expectation) (found : Option Token)
  | trailing (found : Token)
  | unresolved (pfx localName : String)
  /-- The namespace of a prefix opens and does not close. -/
  | unclosedSpace (pfx : String)
  | unclosedUri
  | emptyList
  | unclosedList
  | misfit (negative : Bool) (digits : String) (reason : Decimal.Misfit)
  /-- A sort key without braces has no sign; its text and offset are those of the key. -/
  | undirected (key : String) (offset : Nat)
  | noPhrases
  deriving DecidableEq, Repr

inductive ErrorKind where
  | lexical | syntactic | semantic
  deriving DecidableEq, Repr

def ErrorKind.text : ErrorKind → String
  | lexical => "lexical"
  | syntactic => "syntax"
  | semantic => "semantic"

/-- What lies behind a problem that does not lie in the text alone. -/
inductive Cause where
  | unboundPrefix (pfx : String)
  | misfit (reason : Decimal.Misfit)
  deriving DecidableEq, Repr

def Cause.message : Cause → String
  | unboundPrefix pfx => "no namespace is bound to prefix '" ++ pfx ++ "'"
  | misfit reason => reason.message

namespace Problem

def kind : Problem → ErrorKind
  | lexical _ | misfit _ _ _ => .lexical
  | unresolved _ _ | emptyList | noPhrases => .semantic
  | expected _ _ | trailing _ | unclosedSpace _ | unclosedUri | unclosedList | undirected _ _ =>
    .syntactic

def cause : Problem → Option Cause
  | unresolved pfx _ => some (.unboundPrefix pfx)
  | misfit _ _ reason => some (.misfit reason)
  | _ => none

def message : Problem → String
  | lexical fault => fault.message
  | expected what none => "expected " ++ what.text ++ ", found end of input"
  | expected what (some found) => "expected " ++ what.text ++ ", found '" ++ found.text ++ "'"
  | trailing found => "unexpected '" ++ found.text ++ "' after a complete clause"
  | unresolved pfx localName =>
    "unresolved prefix '" ++ pfx ++ "' in '" ++ pfx ++ ":" ++ localName ++ "'"
  | unclosedSpace pfx => "namespace URI for prefix '" ++ pfx ++ "' is missing its closing '>'"
  | unclosedUri => "URI reference is missing its closing '>'"
  | emptyList => "'in' list has no values"
  | unclosedList => "'in' list is missing its closing ']'"
  | misfit negative digits _ =>
    "decimal literal '" ++ (if negative then "-" else "") ++ digits ++ "' cannot be represented"
  | undirected key _ => "sort key '" ++ key ++ "' needs a '+' or '-' direction"
  | noPhrases => "search terms clause is empty"

end Problem

structure ParseError where
  problem : Problem
  fragment : String
  offset : Nat
  deriving DecidableEq, Repr

namespace ParseError

def kind (e : ParseError) : ErrorKind := e.problem.kind

def cause (e : ParseError) : Option Cause := e.problem.cause

def message (e : ParseError) : String := e.problem.message

def text (e : ParseError) : String :=
  e.kind.text ++ " error at offset " ++ toString e.offset ++ ": " ++ e.message ++
    " (near '" ++ e.fragment ++ "')"

end ParseError

def LexError.toParseError (e : LexError) : ParseError := ⟨.lexical e.fault, e.fragment, e.offset⟩

end ResourceQuery
