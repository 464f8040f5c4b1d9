import ResourceQuery.Proofs.Lexer.Tokenization

/-!
# Spelling tokens and reading them again

A delimiter ends every token, and so does the end of the text; only after `<` it matters what
comes later, since a URI reference may hold a comma or a bracket. So a list of well-formed tokens
comes back from its spelling with one space between any two, and it comes back only if its
tokens are well formed, since the lexer reads no others.
-/

namespace ResourceQuery

set_option autoImplicit false

open Reading Lexer

variable {p : Char → Bool} {follow rest w : List Char} {c : Char} {t : Token} {ts : List Token}

/-- One of the characters comes first, or nothing. -/
def BeginsIn (follow rest : List Char) : Prop := ∀ c ∈ rest.head?, c ∈ follow

theorem beginsIn_nil : BeginsIn follow [] := nofun

theorem beginsIn_append (h : w.head? = some c) (hc : c ∈ follow) :
    BeginsIn follow (w ++ rest) := by
  rw [BeginsIn, List.head?_append, h, Option.some_or]
  rintro d ⟨⟩
  exact hc

theorem BeginsIn.stops (h : BeginsIn follow rest) (hp : follow.any p = false) : Stops p rest :=
  fun c hc => Bool.eq_false_iff.mpr (List.any_eq_false.mp hp c (h c hc))

theorem BeginsIn.head?_ne (h : BeginsIn follow rest) (hc : c ∉ follow) : rest.head? ≠ some c :=
  fun hhead => hc (h c hhead)

/-- The characters that stand after a word or an operand of a clause. -/
def delimiters : List Char := [' ', ',', ']', '}']

theorem endsBefore_of_beginsIn (h : BeginsIn delimiters rest)
    (hopen : t = .comparison .lt → uriBody? rest = none) : EndsBefore t rest := by
  cases t with
  | prefixed _ _ | name _ | boolean _ | number _ | language _ => exact h.stops (by decide)
  | uri _ | quoted _ => trivial
  | comparison relation =>
    cases relation with
    | lt => exact ⟨h.head?_ne (by decide), h.head?_ne (by decide), hopen rfl⟩
    | gt => exact h.head?_ne (by decide)
    | eq | ne | le | ge => trivial
  | mark m =>
    cases m with
    | conjunction | membership => exact h.stops (by decide)
    | openBrace | closeBrace | openBracket | closeBracket | comma | plus | minus | star |
      datatype => trivial

/-- Every token ends before a blank. -/
theorem endsBefore_space : EndsBefore t (' ' :: rest) :=
  endsBefore_of_beginsIn (beginsIn_append (c := ' ') (w := [' ']) rfl (by decide)) fun _ => rfl

theorem tokenizes_spaced (h : ∀ t ∈ ts, t.WellFormed) :
    Tokenizes (" ".intercalate (ts.map Token.text)).toList ts := by
  induction ts with
  | nil => exact .done rfl
  | cons t ts ih =>
    obtain ⟨ht, hts⟩ := List.forall_mem_cons.mp h
    cases ts with
    | nil =>
      have hends : EndsBefore t [] := endsBefore_of_beginsIn beginsIn_nil fun _ => rfl
      have hlast := Tokenizes.cons_of_wellFormed ht hends (.done rfl)
      simpa using hlast
    | cons u ts =>
      have hlater := (ih hts).skip (c := ' ') (by decide)
      have hfirst := hlater.cons_of_wellFormed ht endsBefore_space
      rw [List.map_cons, List.map_cons, String.intercalate_cons_cons, ← List.map_cons]
      simpa using hfirst

/-- The tokens that are read are well formed, the end is reported where only blanks are left,
and just the lists of well-formed tokens come back from their spelling. -/
theorem wellFormed_iff_tokenize_spaced (l : Lexer) (ts : List Token) :
    (∀ t, l.next.1 = .ok (some t) → t.WellFormed) ∧
    (l.next.1 = .ok none ↔ ∀ c ∈ l.ahead, Text.isBlank c = true) ∧
    ((∀ t ∈ ts, t.WellFormed) ↔
      tokenize (" ".intercalate (ts.map Token.text)) = .ok ts) := by
  refine ⟨?_, next_eq_none_iff, ?_⟩
  · intro t h
    obtain ⟨c, rest, n, _, hread, _⟩ := of_next_some (Prod.ext h rfl)
    exact wellFormed_of_ofChars hread
  · rw [tokenize_eq_ok_iff]
    exact ⟨tokenizes_spaced, Tokenizes.wellFormed⟩

end ResourceQuery
