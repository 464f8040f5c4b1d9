/-!
# JSON text

JSON values without numbers, whose objects keep the order of their members, and the two texts
of a value: compact, and indented by two spaces a level. In a string, only the quote, the
backslash and the controls below the space are escaped.
-/

namespace ResourceQuery

set_option autoImplicit false

inductive Json where
  | null
  | bool (value : Bool)
  | string (value : String)
  | array (items : List Json)
  | object (members : List (String × Json))

namespace Json

def escape (c : Char) : List Char :=
  if c = '"' then ['\\', '"']
  else if c = '\\' then ['\\', '\\']
  else if c = '\x08' then ['\\', 'b']
  else if c = '\x0c' then ['\\', 'f']
  else if c = '\n' then ['\\', 'n']
  else if c = '\r' then ['\\', 'r']
  else if c = '\t' then ['\\', 't']
  else if c < ' ' then
    ['\\', 'u', '0', '0', Nat.digitChar (c.toNat / 16), Nat.digitChar (c.toNat % 16)]
  else [c]

def quote (s : String) : String := "\"" ++ String.ofList (s.toList.flatMap escape) ++ "\""

mutual

def compact : Json → String
  | null => "null"
  | bool true => "true"
  | bool false => "false"
  | string s => quote s
  | array items => "[" ++ ",".intercalate (compactItems items) ++ "]"
  | object members => "\x7b" ++ ",".intercalate (compactMembers members) ++ "\x7d"

def compactItems : List Json → List String
  | [] => []
  | j :: js => j.compact :: compactItems js

def compactMembers : List (String × Json) → List String
  | [] => []
  | m :: ms => compactMember m :: compactMembers ms

def compactMember : String × Json → String
  | (key, j) => quote key ++ ":" ++ j.compact

end

def indent (level : Nat) : String := String.ofList (List.replicate (2 * level) ' ')

/-- Parts in brackets, each on a line one level further in; none at all stay on the line. -/
def block (opening closing : String) (level : Nat) (parts : List String) : String :=
  if parts.isEmpty then opening ++ closing
  else
    opening ++ "\n" ++ indent (level + 1) ++ (",\n" ++ indent (level + 1)).intercalate parts ++
      "\n" ++ indent level ++ closing

mutual

def prettyAt (level : Nat) : Json → String
  | null => "null"
  | bool true => "true"
  | bool false => "false"
  | string s => quote s
  | array items => block "[" "]" level (prettyItems (level + 1) items)
  | object members => block "\x7b" "\x7d" level (prettyMembers (level + 1) members)

def prettyItems (level : Nat) : List Json → List String
  | [] => []
  | j :: js => j.prettyAt level :: prettyItems level js

def prettyMembers (level : Nat) : List (String × Json) → List String
  | [] => []
  | m :: ms => prettyMember level m :: prettyMembers level ms

def prettyMember (level : Nat) : String × Json → String
  | (key, j) => quote key ++ ": " ++ j.prettyAt level

end

def pretty (j : Json) : String := j.prettyAt 0

end Json

end ResourceQuery
