import ResourceQuery.Proofs.Clause.Rendering
import ResourceQuery.Proofs.Lexer.Respacing
import ResourceQuery.Proofs.SearchTerms.Acceptance

/-!
# Reading rendered search clauses

A phrase is written between quotes as it was read, so a search clause is rendered as its own text
less the blanks outside of its strings. Where a string ends is settled by the quotes and
backslashes in it alone. A phrase may hold commas, blanks and escaped quotes, and any list of
phrases that can be written between quotes is read back from its rendering.
-/

namespace ResourceQuery.SearchTerms

set_option autoImplicit false

open Lexer
open Term (Spells spells_token)

variable {c : Char} {cs w rest body : List Char} {t : Token} {ts : List Token}
  {gap : Nat → List Char} {phrases : List String} {text : String}

mutual

/-- A text without its blanks, except for those in its strings. -/
def withoutBlanks : List Char → List Char
  | [] => []
  | '"' :: cs => '"' :: withinString cs
  | c :: cs => if Text.isBlank c then withoutBlanks cs else c :: withoutBlanks cs

/-- The same from within a string on. An escaped quote does not end the string. -/
def withinString : List Char → List Char
  | [] => []
  | '"' :: cs => '"' :: withoutBlanks cs
  | '\\' :: c :: cs => '\\' :: c :: withinString cs
  | c :: cs => c :: withinString cs

end

example : withoutBlanks "\t\"a \\\" b\" , \"c\"\n".toList = "\"a \\\" b\",\"c\"".toList := by
  decide +kernel

theorem withoutBlanks_cons_of_isBlank (h : Text.isBlank c = true) :
    withoutBlanks (c :: cs) = withoutBlanks cs := by
  have hquote : c ≠ '"' := by
    rintro rfl
    exact absurd h (by decide)
  rw [withoutBlanks, if_pos h]
  exact hquote

theorem withoutBlanks_append_of_blank (hw : ∀ c ∈ w, Text.isBlank c = true) :
    withoutBlanks (w ++ cs) = withoutBlanks cs := by
  induction w with
  | nil => rfl
  | cons c w ih =>
    obtain ⟨hc, hw⟩ := List.forall_mem_cons.mp hw
    rw [List.cons_append, withoutBlanks_cons_of_isBlank hc, ih hw]

theorem withinString_body (h : Token.IsBody body) :
    withinString (body ++ '"' :: rest) = body ++ '"' :: withoutBlanks rest := by
  induction h with
  | nil => rw [List.nil_append, List.nil_append, withinString]
  | @plain c body hquote hescape _ ih =>
    rw [List.cons_append, List.cons_append, withinString, ih]
    · exact hquote
    · rintro _ _ rfl
      exact absurd rfl hescape
  | @escaped c body _ ih =>
    rw [List.cons_append, List.cons_append, List.cons_append, List.cons_append, withinString, ih]

/-- What a search clause is made of: separators, and strings that end where they are closed. -/
def IsPart (t : Token) : Prop :=
  t = .mark .comma ∨ ∃ body, t = .quoted body ∧ Token.IsBody body.toList

theorem withoutBlanks_text_append (ht : IsPart t) :
    withoutBlanks (t.text.toList ++ rest) = t.text.toList ++ withoutBlanks rest := by
  rcases ht with rfl | ⟨body, rfl, hbody⟩
  · rfl
  · have htext : (Token.quoted body).text.toList = '"' :: (body.toList ++ ['"']) := by
      simp [Token.text]
    rw [htext, List.cons_append, List.append_assoc, List.singleton_append, withoutBlanks,
      withinString_body hbody, List.cons_append, List.append_assoc, List.singleton_append]

theorem withoutBlanks_spread (hgap : Blank gap) (hts : ∀ t ∈ ts, IsPart t) :
    withoutBlanks (spread gap ts) = ts.flatMap fun t => t.text.toList := by
  induction ts generalizing gap with
  | nil =>
    rw [spread, ← List.append_nil (gap 0), withoutBlanks_append_of_blank (hgap 0)]
    rfl
  | cons t ts ih =>
    obtain ⟨ht, hts⟩ := List.forall_mem_cons.mp hts
    rw [spread, withoutBlanks_append_of_blank (hgap 0), withoutBlanks_text_append ht,
      ih (hgap.later 1) hts, List.flatMap_cons]

theorem mem_clause (h : t ∈ clause phrases) :
    t = .mark .comma ∨ ∃ body ∈ phrases, t = .quoted body := by
  cases phrases with
  | nil => cases h
  | cons first phrases =>
    rw [clause_cons, List.mem_cons] at h
    rcases h with rfl | h
    · exact Or.inr ⟨first, List.mem_cons_self, rfl⟩
    · obtain ⟨body, hbody, h⟩ := List.mem_flatMap.mp h
      simp only [List.mem_cons, List.not_mem_nil, or_false] at h
      exact h.imp_right fun h => ⟨body, List.mem_cons_of_mem _ hbody, h⟩

theorem quoted_mem_clause {body : String} (h : body ∈ phrases) :
    .quoted body ∈ clause phrases := by
  obtain ⟨first, phrases, rfl⟩ := List.exists_cons_of_ne_nil (List.ne_nil_of_mem h)
  rw [clause_cons]
  rcases List.mem_cons.mp h with rfl | h
  · exact List.mem_cons_self
  · exact List.mem_cons_of_mem _ (List.mem_flatMap.mpr ⟨body, h, by simp⟩)

/-- A search clause is written as its tokens are, with nothing between them. -/
theorem toList_clauseText (phrases : List String) :
    (clauseText phrases).toList = (clause phrases).flatMap fun t => t.text.toList := by
  cases phrases with
  | nil => rfl
  | cons first phrases =>
    have hcomma : ",".toList = [','] := rfl
    rw [clauseText, String.toList_intercalate, hcomma, List.map_cons, List.map_cons,
      intercalate_singleton_cons, clause_cons, List.flatMap_cons, later, List.flatMap_assoc,
      List.map_map, List.flatMap_map]
    simp [Token.text, Mark.text]

/-- What can be written as a search clause: phrases that a quote ends at no earlier place. -/
structure Writable (phrases : List String) : Prop where
  nonempty : phrases ≠ []
  bodies : ∀ body ∈ phrases, Token.IsBody body.toList

theorem writable_of_parse (h : parse text = .ok phrases) : Writable phrases := by
  obtain ⟨hne, htokens⟩ := parse_eq_ok_iff.mp h
  have hwell := (tokenize_eq_ok_iff.mp htokens).wellFormed
  exact ⟨hne, fun body hbody => hwell _ (quoted_mem_clause hbody)⟩

theorem parse_clauseText_of_writable (h : Writable phrases) :
    parse (clauseText phrases) = .ok phrases := by
  have hspell : Spells delimiters (clauseText phrases) (clause phrases) :=
    Spells.intercalate (fun body hbody => spells_token (t := .quoted body) (h.bodies body hbody)
      nofun) (by decide)
  exact parse_eq_ok_iff.mpr ⟨h.nonempty, tokenize_eq_ok_iff.mpr hspell.tokenizes⟩

theorem readsBack : Clause.ReadsBack parse clauseText Writable :=
  ⟨fun _ _ => writable_of_parse, fun _ => parse_clauseText_of_writable⟩

/-- What is read is rendered as it was written, less the blanks outside of its strings. -/
theorem toList_clauseText_of_parse (h : parse text = .ok phrases) :
    (clauseText phrases).toList = withoutBlanks text.toList := by
  have hwritable := writable_of_parse h
  obtain ⟨gap, hgap, htext⟩ := exists_spread (tokenize_eq_ok_iff.mp (parse_eq_ok_iff.mp h).2)
  have hparts : ∀ t ∈ clause phrases, IsPart t := by
    intro t ht
    refine (mem_clause ht).imp_right ?_
    rintro ⟨body, hbody, rfl⟩
    exact ⟨body, rfl, hwritable.bodies body hbody⟩
  rw [htext, withoutBlanks_spread hgap hparts, toList_clauseText]

/-- A search clause is accepted if its tokens are strings with commas between them, and gives the
bodies of these. It is rendered as its own text without the blanks outside of strings, and phrases
that can be written are read back from their rendering. -/
theorem parse_eq_phrases_iff_strings (text : String) (phrases : List String) :
    (parse text = .ok phrases ↔ phrases ≠ [] ∧ tokenize text = .ok (clause phrases)) ∧
    (parse text = .ok phrases → (clauseText phrases).toList = withoutBlanks text.toList) ∧
    (phrases ≠ [] → (∀ body ∈ phrases, Token.IsBody body.toList) →
      parse (clauseText phrases) = .ok phrases) := by
  refine ⟨parse_eq_ok_iff, toList_clauseText_of_parse, ?_⟩
  intro hne hbodies
  exact readsBack.parse_render phrases ⟨hne, hbodies⟩

/-- A phrase with an escaped quote and a comma, and blanks inside and outside of strings. -/
theorem parse_eq_phrases_iff_strings_escaped :
    parse " \"a\\\", b\"\n,\"\" " = .ok ["a\\\", b", ""] ∧
    (clauseText ["a\\\", b", ""]).toList = withoutBlanks " \"a\\\", b\"\n,\"\" ".toList ∧
    parse (clauseText ["a\\\", b", ""]) = .ok ["a\\\", b", ""] := by
  obtain ⟨haccepts, hrendered, hback⟩ :=
    parse_eq_phrases_iff_strings " \"a\\\", b\"\n,\"\" " ["a\\\", b", ""]
  have htokens : tokenize " \"a\\\", b\"\n,\"\" " = .ok (clause ["a\\\", b", ""]) := by
    decide +kernel
  have hparse := haccepts.mpr ⟨List.cons_ne_nil _ _, htokens⟩
  have hwritable := writable_of_parse hparse
  exact ⟨hparse, hrendered hparse, hback hwritable.nonempty hwritable.bodies⟩

end ResourceQuery.SearchTerms
