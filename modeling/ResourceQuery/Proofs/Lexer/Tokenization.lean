import ResourceQuery.Proofs.Basics
import ResourceQuery.Proofs.Lexer.OneToken

/-!
# Reading all tokens

`Tokenizes` says which tokens a list of characters has, without positions: it is what
`tokenize` computes, and it is built up from the end of a text. The tokens that are read are
exactly the well-formed ones: each list of these comes back from its spelling with one space
between any two.
-/

namespace ResourceQuery

set_option autoImplicit false

namespace Lexer

open Reading

variable {cs rest : List Char} {c : Char} {t : Token} {ts us : List Token} {l l' : Lexer}
  {e : LexError}

inductive Tokenizes : List Char → List Token → Prop where
  | done {cs : List Char} (h : cs.dropWhile Text.isBlank = []) : Tokenizes cs []
  | token {cs rest : List Char} {c : Char} {t : Token} {n : Nat} {ts : List Token}
    (hskip : cs.dropWhile Text.isBlank = c :: rest) (hread : ofChars c rest = .token t n)
    (h : Tokenizes ((c :: rest).drop n) ts) : Tokenizes cs (t :: ts)

namespace Tokenizes

theorem skip (hc : Text.isBlank c = true) (h : Tokenizes cs ts) : Tokenizes (c :: cs) ts := by
  have hdrop : (c :: cs).dropWhile Text.isBlank = cs.dropWhile Text.isBlank := by
    rw [List.dropWhile_cons, if_pos hc]
  cases h with
  | done h => exact .done (hdrop.trans h)
  | token hskip hread h => exact .token (hdrop.trans hskip) hread h

theorem cons (ht : Reads t rest) (h : Tokenizes rest ts) :
    Tokenizes (t.text.toList ++ rest) (t :: ts) := by
  obtain ⟨c, cs, htext, hc, hread⟩ := ht
  have hskip : (t.text.toList ++ rest).dropWhile Text.isBlank = c :: cs := by
    rw [htext, List.dropWhile_cons, if_neg (Bool.eq_false_iff.mp hc)]
  refine .token hskip hread ?_
  rwa [← htext, List.drop_left]

theorem cons_of_wellFormed (ht : t.WellFormed) (hends : EndsBefore t rest)
    (h : Tokenizes rest ts) : Tokenizes (t.text.toList ++ rest) (t :: ts) :=
  h.cons (reads_of_endsBefore ht hends)

theorem iff_of_done (hskip : cs.dropWhile Text.isBlank = []) : Tokenizes cs ts ↔ ts = [] := by
  constructor
  · intro h
    cases h with
    | done => rfl
    | token hskip' =>
      rw [hskip] at hskip'
      cases hskip'
  · rintro rfl
    exact .done hskip

theorem iff_of_token {n : Nat} (hskip : cs.dropWhile Text.isBlank = c :: rest)
    (hread : ofChars c rest = .token t n) :
    Tokenizes cs ts ↔ ∃ us, ts = t :: us ∧ Tokenizes ((c :: rest).drop n) us := by
  constructor
  · intro h
    cases h with
    | done h =>
      rw [hskip] at h
      cases h
    | token hskip' hread' h =>
      rw [hskip] at hskip'
      cases hskip'
      rw [hread] at hread'
      cases hread'
      exact ⟨_, rfl, h⟩
  · rintro ⟨us, rfl, h⟩
    exact .token hskip hread h

theorem not_of_fault {fault : LexicalFault} {width n : Nat}
    (hskip : cs.dropWhile Text.isBlank = c :: rest)
    (hread : ofChars c rest = .fault fault width n) : ¬ Tokenizes cs ts := by
  intro h
  cases h with
  | done h =>
    rw [hskip] at h
    cases h
  | token hskip' hread' =>
    rw [hskip] at hskip'
    cases hskip'
    rw [hread] at hread'
    cases hread'

theorem wellFormed (h : Tokenizes cs ts) : ∀ t ∈ ts, t.WellFormed := by
  induction h with
  | done => nofun
  | token _ hread _ ih => exact List.forall_mem_cons.mpr ⟨wellFormed_of_ofChars hread, ih⟩

end Tokenizes

/-- The text that has not been read. -/
def ahead (l : Lexer) : List Char := l.text.drop l.position

theorem of_next_none (h : l.next = (.ok none, l')) : l.ahead.dropWhile Text.isBlank = [] := by
  unfold next at h
  simp only at h
  split at h
  · assumption
  · split at h <;> cases h

theorem of_next_some (h : l.next = (.ok (some t), l')) :
    ∃ c rest n, l.ahead.dropWhile Text.isBlank = c :: rest ∧ ofChars c rest = .token t n ∧
      l'.ahead = (c :: rest).drop n := by
  unfold next at h
  simp only at h
  split at h
  · cases h
  · rename_i c rest hskip
    split at h
    · rename_i hread
      cases h
      refine ⟨c, rest, _, hskip, hread, ?_⟩
      rw [ahead, ← List.drop_drop, ← List.drop_drop, drop_takeWhile, hskip]
    · cases h

theorem of_next_error (h : l.next = (.error e, l')) :
    ∃ c rest fault width n, l.ahead.dropWhile Text.isBlank = c :: rest ∧
      ofChars c rest = .fault fault width n := by
  unfold next at h
  simp only at h
  split at h
  · cases h
  · rename_i c rest hskip
    split at h
    · cases h
    · rename_i hread
      exact ⟨c, rest, _, _, _, hskip, hread⟩

theorem next_eq_none_iff : l.next.1 = .ok none ↔ ∀ c ∈ l.ahead, Text.isBlank c = true := by
  rw [← List.dropWhile_eq_nil_iff]
  constructor
  · intro h
    exact of_next_none (Prod.ext h rfl)
  · intro h
    have h' : (l.text.drop l.position).dropWhile Text.isBlank = [] := h
    simp only [next, h']

theorem tokenize_of_next_error (h : l.next = (.error e, l')) : l.tokenize.1 = .error e := by
  rw [tokenize]
  split <;> simp_all

theorem tokenize_of_next_none (h : l.next = (.ok none, l')) : l.tokenize.1 = .ok [] := by
  rw [tokenize]
  split <;> simp_all

theorem tokenize_eq_map_of_next_some (h : l.next = (.ok (some t), l')) :
    l.tokenize.1 = l'.tokenize.1.map (t :: ·) := by
  rw [tokenize]
  split <;> simp_all

theorem tokenize_of_next_some (h : l.next = (.ok (some t), l')) :
    l.tokenize.1 = .ok ts ↔ ∃ us, ts = t :: us ∧ l'.tokenize.1 = .ok us := by
  rw [tokenize_eq_map_of_next_some h]
  cases l'.tokenize.1 with
  | error e =>
    constructor
    · intro h
      cases h
    · rintro ⟨us, _, hus⟩
      cases hus
  | ok us =>
    constructor
    · rintro ⟨⟩
      exact ⟨us, rfl, rfl⟩
    · rintro ⟨_, rfl, hus⟩
      cases hus
      rfl

theorem tokenize_eq_ok_iff : l.tokenize.1 = .ok ts ↔ Tokenizes l.ahead ts := by
  induction l using tokenize.induct generalizing ts with
  | case1 l e l' hnext =>
    obtain ⟨c, rest, fault, width, n, hskip, hread⟩ := of_next_error hnext
    rw [tokenize_of_next_error hnext]
    exact ⟨nofun, fun h => absurd h (Tokenizes.not_of_fault hskip hread)⟩
  | case2 l l' hnext =>
    rw [tokenize_of_next_none hnext, Tokenizes.iff_of_done (of_next_none hnext)]
    exact ⟨fun h => (Except.ok.inj h).symm, fun h => congrArg Except.ok h.symm⟩
  | case3 l t l' hnext ih =>
    obtain ⟨c, rest, n, hskip, hread, hahead⟩ := of_next_some hnext
    rw [tokenize_of_next_some hnext, Tokenizes.iff_of_token hskip hread, ← hahead]
    simp only [ih]

end Lexer

theorem tokenize_eq_ok_iff {text : String} {ts : List Token} :
    tokenize text = .ok ts ↔ Lexer.Tokenizes text.toList ts := Lexer.tokenize_eq_ok_iff

end ResourceQuery
