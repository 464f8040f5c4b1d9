import ResourceQuery.Text.Classes
import ResourceQuery.Token

/-!
# Reading tokens from a text

`Reading.ofChars` reads one token at the front of a list of characters and says how far the
token reaches; a `Lexer` is a text with a position in it. Each shape of token has one function
that finds its extent, and the longest extent is taken. A malformed token is a `LexicalFault`.
Some faults are found before the position has moved and are met again by the next reading; a
malformed language tag, an unterminated string and a missing local name are passed over.
-/

namespace ResourceQuery

set_option autoImplicit false

inductive LexicalFault where
  | loneBang
  | loneCaret
  | emptyUri
  | unexpected (c : Char)
  | malformedTag (tag : String)
  | unterminatedString
  | missingLocalName (pfx : String)
  deriving DecidableEq, Repr

def LexicalFault.message : LexicalFault → String
  | loneBang => "unexpected '!' (did you mean '!=')"
  | loneCaret => "unexpected '^' (did you mean '^^')"
  | emptyUri => "empty URI reference '<>'"
  | unexpected c => "unexpected character '" ++ c.toString ++ "'"
  | malformedTag tag => "invalid language tag '@" ++ tag ++ "'"
  | unterminatedString => "unterminated string literal"
  | missingLocalName pfx => "expected a local name after '" ++ pfx ++ ":'"

/-- A fault with the text it concerns and the offset of that text. -/
structure LexError where
  fault : LexicalFault
  fragment : String
  offset : Nat
  deriving DecidableEq, Repr

def LexError.message (e : LexError) : String := e.fault.message

def LexError.text (e : LexError) : String := e.message ++ " at offset " ++ toString e.offset

/-- What stands at the front of a text. A token comes with its length; a fault with the width of
the text it concerns, and with the length that reading goes on after. -/
inductive Reading where
  | token (token : Token) (length : Nat)
  | fault (fault : LexicalFault) (width length : Nat)
  deriving DecidableEq, Repr

namespace Reading

/-- The name that the text begins with: a run of name characters less its trailing full stops. -/
def nameRun (cs : List Char) : List Char :=
  ((cs.takeWhile isNameChar).reverse.dropWhile (· == '.')).reverse

/-- The number that the text begins with. A full stop belongs to it if a digit follows. -/
def numberRun (cs : List Char) : List Char :=
  let whole := cs.takeWhile Char.isDigit
  match cs.dropWhile Char.isDigit with
  | '.' :: rest =>
    let fraction := rest.takeWhile Char.isDigit
    if fraction.isEmpty then whole else whole ++ '.' :: fraction
  | _ => whole

/-- The part of the text before its first double quote that no backslash precedes. A backslash
takes the next character with it, and both stay in the string. -/
def quotedBody? : List Char → Option (List Char)
  | [] => none
  | '"' :: _ => some []
  | '\\' :: c :: cs => (quotedBody? cs).map fun body => '\\' :: c :: body
  | c :: cs => (quotedBody? cs).map (c :: ·)

/-- The URI characters before a closing `>`, if it follows them directly. -/
def uriBody? (cs : List Char) : Option (List Char) :=
  match cs.dropWhile isUriChar with
  | '>' :: _ => some (cs.takeWhile isUriChar)
  | _ => none

def isTagChar (c : Char) : Bool := c.isAlphanum || c == '-'

/-- Whether a letter or a digit follows each hyphen. -/
def hyphensLead : List Char → Bool
  | [] => true
  | ['-'] => false
  | '-' :: '-' :: _ => false
  | _ :: cs => hyphensLead cs

/-- A language tag is a run of letters, and then runs of letters and digits, each after one
hyphen. -/
def isLanguageTag (tag : List Char) : Bool :=
  let primary := tag.takeWhile (· != '-')
  !primary.isEmpty && primary.all Char.isAlpha && tag.all isTagChar && hyphensLead tag

/-- The token that a character is by itself, whatever follows. -/
def sign? : Char → Option Token
  | ',' => some (.mark .comma)
  | '+' => some (.mark .plus)
  | '-' => some (.mark .minus)
  | '*' => some (.mark .star)
  | '{' => some (.mark .openBrace)
  | '}' => some (.mark .closeBrace)
  | '[' => some (.mark .openBracket)
  | ']' => some (.mark .closeBracket)
  | '=' => some (.comparison .eq)
  | _ => none

/-- A prefixed name whose prefix and colon have been read. -/
def ofLocal (pfx rest : List Char) : Reading :=
  let name := nameRun rest
  let before := pfx.length + 1
  if name.isEmpty then
    .fault (.missingLocalName (String.ofList pfx)) before before
  else
    .token (.prefixed (String.ofList pfx) (String.ofList name)) (before + name.length)

/-- A bare word, or a prefixed name if a colon follows the word directly. -/
def ofWord (cs : List Char) : Reading :=
  let word := nameRun cs
  match cs.drop word.length with
  | ':' :: rest => ofLocal word rest
  | _ => .token (Token.ofWord (String.ofList word)) word.length

def ofNumber (cs : List Char) : Reading :=
  let digits := numberRun cs
  .token (.number (String.ofList digits)) digits.length

def ofBang : List Char → Reading
  | '=' :: _ => .token (.comparison .ne) 2
  | _ => .fault .loneBang 1 0

def ofCaret : List Char → Reading
  | '^' :: _ => .token (.mark .datatype) 2
  | _ => .fault .loneCaret 1 0

def ofGreater : List Char → Reading
  | '=' :: _ => .token (.comparison .ge) 2
  | _ => .token (.comparison .gt) 1

/-- What `<` begins. It opens a URI reference if URI characters and then `>` follow. -/
def ofLess : List Char → Reading
  | '=' :: _ => .token (.comparison .le) 2
  | '>' :: _ => .fault .emptyUri 2 0
  | rest =>
    match uriBody? rest with
    | some body => .token (.uri (String.ofList body)) (body.length + 2)
    | none => .token (.comparison .lt) 1

def ofQuote (rest : List Char) : Reading :=
  match quotedBody? rest with
  | some body => .token (.quoted (String.ofList body)) (body.length + 2)
  | none => .fault .unterminatedString (rest.length + 1) (rest.length + 1)

def ofAt (rest : List Char) : Reading :=
  let tag := rest.takeWhile isTagChar
  if isLanguageTag tag then
    .token (.language (String.ofList tag)) (tag.length + 1)
  else
    .fault (.malformedTag (String.ofList tag)) (tag.length + 1) (tag.length + 1)

/-- What stands at the front of `c :: rest`, where `c` is not blank. -/
def ofChars (c : Char) (rest : List Char) : Reading :=
  match sign? c with
  | some t => .token t 1
  | none =>
    match c with
    | '!' => ofBang rest
    | '>' => ofGreater rest
    | '<' => ofLess rest
    | '^' => ofCaret rest
    | '@' => ofAt rest
    | '"' => ofQuote rest
    | ':' => ofLocal [] rest
    | _ =>
      if c.isDigit then ofNumber (c :: rest)
      else if isNameStart c then ofWord (c :: rest)
      else .fault (.unexpected c) 1 0

theorem nameRun_ne_nil {c : Char} {cs : List Char} (h : isNameStart c = true) :
    nameRun (c :: cs) ≠ [] := by
  have hname := isNameChar_of_isNameStart h
  have hdot : c ≠ '.' := by
    rintro rfl
    exact absurd h (by decide)
  intro hnil
  have hdrop : ((cs.takeWhile isNameChar).reverse ++ [c]).dropWhile (· == '.') = [] := by
    simpa [nameRun, hname] using hnil
  have hmem : c ∈ ((cs.takeWhile isNameChar).reverse ++ [c]).dropWhile (· == '.') := by
    rw [List.dropWhile_append]
    split <;> simp [hdot]
  simp [hdrop] at hmem

theorem numberRun_ne_nil {c : Char} {cs : List Char} (h : c.isDigit = true) :
    numberRun (c :: cs) ≠ [] := by
  unfold numberRun
  simp only [List.takeWhile_cons, h, if_true]
  split
  · split <;> simp
  · simp

theorem ofLocal_length_pos {pfx rest : List Char} {t : Token} {n : Nat}
    (h : ofLocal pfx rest = .token t n) : 0 < n := by
  unfold ofLocal at h
  simp only at h
  split at h
  · cases h
  · cases h
    omega

theorem ofWord_length_pos {c : Char} {rest : List Char} {t : Token} {n : Nat}
    (hc : isNameStart c = true) (h : ofWord (c :: rest) = .token t n) : 0 < n := by
  unfold ofWord at h
  simp only at h
  split at h
  · exact ofLocal_length_pos h
  · cases h
    exact List.length_pos_iff.mpr (nameRun_ne_nil hc)

/-- A token is at least one character long, so reading always goes on. -/
theorem ofChars_length_pos {c : Char} {rest : List Char} {t : Token} {n : Nat}
    (h : ofChars c rest = .token t n) : 0 < n := by
  unfold ofChars at h
  split at h
  · cases h
    omega
  · split at h
    · unfold ofBang at h
      split at h <;> cases h
      omega
    · unfold ofGreater at h
      split at h <;> cases h <;> omega
    · unfold ofLess at h
      split at h
      · cases h
        omega
      · cases h
      · split at h <;> cases h <;> omega
    · unfold ofCaret at h
      split at h <;> cases h
      omega
    · unfold ofAt at h
      simp only at h
      split at h <;> cases h
      omega
    · unfold ofQuote at h
      split at h <;> cases h
      omega
    · exact ofLocal_length_pos h
    · split at h
      · next hdigit =>
        cases h
        exact List.length_pos_iff.mpr (numberRun_ne_nil hdigit)
      · split at h
        · next hstart => exact ofWord_length_pos hstart h
        · cases h

end Reading

/-- A text, where the latest token of it began, and where the next reading begins. -/
structure Lexer where
  text : List Char
  tokenStart : Nat
  position : Nat
  deriving DecidableEq, Repr

namespace Lexer

def ofString (s : String) : Lexer := ⟨s.toList, 0, 0⟩

/-- The text from `start` up to `stop`, or up to its end if that comes first. -/
def slice (l : Lexer) (start stop : Nat) : String :=
  String.ofList ((l.text.take stop).drop start)

def remaining (l : Lexer) : Nat := l.text.length - l.position

/-- Skips blanks and reads a token; `none` is the end of the text. -/
def next (l : Lexer) : Except LexError (Option Token) × Lexer :=
  let ahead := l.text.drop l.position
  let start := l.position + (ahead.takeWhile Text.isBlank).length
  match ahead.dropWhile Text.isBlank with
  | [] => (.ok none, ⟨l.text, start, start⟩)
  | c :: rest =>
    match Reading.ofChars c rest with
    | .token t length => (.ok (some t), ⟨l.text, start, start + length⟩)
    | .fault fault width length =>
      (.error ⟨fault, l.slice start (start + width), start⟩, ⟨l.text, start, start + length⟩)

theorem remaining_le_of_next {l l' : Lexer} {r : Except LexError (Option Token)}
    (h : l.next = (r, l')) : l'.remaining ≤ l.remaining := by
  unfold next at h
  simp only at h
  split at h
  · cases h
    simp only [remaining]
    omega
  · split at h <;> cases h <;> simp only [remaining] <;> omega

/-- A token that has been read is no longer ahead. -/
theorem remaining_lt_of_next {l l' : Lexer} {t : Token} (h : l.next = (.ok (some t), l')) :
    l'.remaining < l.remaining := by
  unfold next at h
  simp only at h
  split at h
  · cases h
  · next c rest hahead =>
    have hlt : l.position < l.text.length := by
      have := (List.dropWhile_sublist Text.isBlank (l := l.text.drop l.position)).length_le
      rw [hahead, List.length_cons, List.length_drop] at this
      omega
    split at h
    · next hread =>
      cases h
      have := Reading.ofChars_length_pos hread
      simp only [remaining]
      omega
    · cases h

/-- Reads all tokens up to the end of the text, or up to the first fault. -/
def tokenize (l : Lexer) : Except LexError (List Token) × Lexer :=
  match _h : l.next with
  | (.error e, l') => (.error e, l')
  | (.ok none, l') => (.ok [], l')
  | (.ok (some t), l') =>
    let later := tokenize l'
    (later.1.map (t :: ·), later.2)
termination_by l.remaining
decreasing_by exact remaining_lt_of_next _h

end Lexer

def tokenize (s : String) : Except LexError (List Token) := (Lexer.ofString s).tokenize.1

end ResourceQuery
