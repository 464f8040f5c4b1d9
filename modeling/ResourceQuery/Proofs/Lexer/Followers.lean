import ResourceQuery.Proofs.Lexer.LongestMatch
import ResourceQuery.Proofs.Lexer.Tokenization

/-!
# What stands behind a token that is read

In a text that is read to its end, whatever follows a token could not have gone on with it, or
the longer token would have been read. Only a full stop could follow a name that is cut before
it, and no token begins with a full stop. So it does no harm to put a blank there, except after
`<`, where a URI reference may open that has the blank in it.
-/

namespace ResourceQuery.Reading

set_option autoImplicit false

open Token

variable {p : Char → Bool} {c : Char} {cs w rest rest' after : List Char} {t u : Token}

theorem Reads.length_le (h : Reads t rest) (hu : u.WellFormed)
    (hfront : u.text.toList <+: t.text.toList ++ rest) :
    u.text.toList.length ≤ t.text.toList.length := by
  obtain ⟨c, cs, htext, _, hread⟩ := h
  rw [htext] at hfront
  exact length_le_of_ofChars hu hfront hread

/-- A character that could go on with a token does not follow it. -/
theorem Reads.not_longer (h : Reads t (c :: after)) (htext : u.text.toList = t.text.toList ++ [c]) :
    ¬ u.WellFormed := by
  intro hu
  have hfront : u.text.toList <+: t.text.toList ++ c :: after := ⟨after, by simp [htext]⟩
  have hle := h.length_le hu hfront
  rw [htext, List.length_append, List.length_singleton] at hle
  omega

theorem isLocalName_concat (hw : IsLocalName w) (hc : isNameChar c = true) (hdot : c ≠ '.') :
    IsLocalName (w ++ [c]) := by
  refine ⟨by simp, List.forall_mem_append.mpr ⟨hw.chars, List.forall_mem_singleton.mpr hc⟩, ?_⟩
  rw [List.getLast?_concat]
  exact fun h => hdot (Option.some.inj h)

theorem isWord_concat (hw : IsWord w) (hc : isNameChar c = true) (hdot : c ≠ '.') :
    IsWord (w ++ [c]) := by
  refine ⟨isLocalName_concat hw.toIsLocalName hc hdot, ?_⟩
  rw [List.head?_append_of_ne_nil _ hw.nonempty]
  exact hw.start

theorem isDigits_concat (hw : IsDigits w) (hc : c.isDigit = true) : IsDigits (w ++ [c]) :=
  ⟨by simp, List.forall_mem_append.mpr ⟨hw.digits, List.forall_mem_singleton.mpr hc⟩⟩

theorem isNumeral_concat (hw : IsNumeral w) (hc : c.isDigit = true) : IsNumeral (w ++ [c]) := by
  cases hw with
  | whole h => exact .whole (isDigits_concat h hc)
  | fraction h k =>
    rw [List.append_assoc, List.cons_append]
    exact .fraction h (isDigits_concat k hc)

/-- A run ends where no character of the class comes first. -/
theorem stops_of_cons (h : ∀ c after, rest = c :: after → p c ≠ true) : Stops p rest := by
  cases rest with
  | nil => exact stops_nil
  | cons c after => exact stops_cons (Bool.eq_false_iff.mpr (h c after rfl))

theorem stops_of_reads_prefixed {pfx localName : String}
    (ht : (prefixed pfx localName).WellFormed) (h : Reads (.prefixed pfx localName) rest)
    (hdot : rest.head? ≠ some '.') : Stops isNameChar rest := by
  apply stops_of_cons
  rintro c after rfl hc
  have hne : c ≠ '.' := fun heq => hdot (congrArg some heq)
  have hlonger : (prefixed pfx (localName.push c)).WellFormed := by
    refine ⟨ht.1, ?_⟩
    rw [String.toList_push]
    exact isLocalName_concat ht.2 hc hne
  exact h.not_longer (by simp [text]) hlonger

theorem stops_of_reads_word (hw : IsWord t.text.toList) (h : Reads t rest)
    (hdot : rest.head? ≠ some '.') : Stops isWordChar rest := by
  apply stops_of_cons
  rintro c after rfl hc
  rcases Bool.or_eq_true_iff.mp hc with hname | hcolon
  · have hne : c ≠ '.' := fun heq => hdot (congrArg some heq)
    have hlonger : (Token.ofWord (t.text.push c)).WellFormed := by
      apply wellFormed_ofWord
      rw [String.toList_push]
      exact isWord_concat hw hname hne
    exact h.not_longer (by simp [Token.text_ofWord]) hlonger
  · -- with a colon behind it the word is a prefix, and what is read holds the colon too
    obtain rfl : c = ':' := beq_iff_eq.mp hcolon
    obtain ⟨d, cs, htext, _, hread⟩ := h
    have hd : isNameStart d = true := by
      obtain ⟨e, es, hes⟩ := List.exists_cons_of_ne_nil hw.nonempty
      rw [hes] at htext
      obtain ⟨rfl, _⟩ := List.cons.inj htext
      exact hw.start e (by rw [hes]; rfl)
    rw [ofChars_of_isNameStart hd, ← htext, ofWord_append_colon hw] at hread
    unfold ofLocal at hread
    simp only at hread
    split at hread
    · cases hread
    · obtain ⟨_, hlength⟩ := Reading.token.inj hread
      omega

theorem stops_of_reads_number {digits : String} (ht : IsNumeral digits.toList)
    (h : Reads (.number digits) rest) (hdot : rest.head? ≠ some '.') :
    Stops isNumeralChar rest := by
  apply stops_of_cons
  rintro c after rfl hc
  rcases Bool.or_eq_true_iff.mp hc with hdigit | hpoint
  · have hlonger : (number (digits.push c)).WellFormed := by
      rw [WellFormed, String.toList_push]
      exact isNumeral_concat ht hdigit
    exact h.not_longer (by simp [text]) hlonger
  · exact hdot (congrArg some (beq_iff_eq.mp hpoint))

theorem stops_of_reads_language {tag : String} (ht : IsTag tag.toList)
    (h : Reads (.language tag) rest) : Stops isTagChar rest := by
  apply stops_of_cons
  rintro c after rfl hc
  have htext : (language tag).text.toList = '@' :: tag.toList := by simp [text]
  obtain ⟨d, cs, hcons, _, hread⟩ := h
  rw [htext] at hcons hread
  cases hcons
  have hread' : ofAt (tag.toList ++ c :: after) =
      .token (.language tag) ('@' :: tag.toList).length := hread
  have htake : (tag.toList ++ c :: after).takeWhile isTagChar =
      tag.toList ++ c :: after.takeWhile isTagChar := by
    rw [List.takeWhile_append_of_pos (isTagChar_of_isTag ht), List.takeWhile_cons, if_pos hc]
  unfold ofAt at hread'
  simp only [htake] at hread'
  split at hread'
  · obtain ⟨_, hlength⟩ := Reading.token.inj hread'
    simp only [List.length_append, List.length_cons] at hlength
    omega
  · cases hread'

theorem endsBefore_of_reads_lt (h : Reads (.comparison .lt) rest) :
    EndsBefore (.comparison .lt) rest := by
  obtain ⟨c, cs, hcons, _, hread⟩ := h
  cases hcons
  have hread' : ofLess rest = .token (.comparison .lt) 1 := hread
  unfold ofLess at hread'
  split at hread'
  · cases hread'
  · cases hread'
  · rename_i heq hgt
    split at hread'
    · cases hread'
    · rename_i hnone
      refine ⟨?_, ?_, hnone⟩
      · intro hhead
        obtain ⟨after, rfl⟩ := List.head?_eq_some_iff.mp hhead
        exact heq after rfl
      · intro hhead
        obtain ⟨after, rfl⟩ := List.head?_eq_some_iff.mp hhead
        exact hgt after rfl

theorem endsBefore_of_reads_gt (h : Reads (.comparison .gt) rest) :
    EndsBefore (.comparison .gt) rest := by
  obtain ⟨c, cs, hcons, _, hread⟩ := h
  cases hcons
  have hread' : ofGreater rest = .token (.comparison .gt) 1 := hread
  unfold ofGreater at hread'
  split at hread'
  · cases hread'
  · rename_i heq
    intro hhead
    obtain ⟨after, rfl⟩ := List.head?_eq_some_iff.mp hhead
    exact heq after rfl

theorem endsBefore_of_reads (ht : t.WellFormed) (h : Reads t rest)
    (hdot : rest.head? ≠ some '.') : EndsBefore t rest := by
  cases t with
  | prefixed pfx localName => exact stops_of_reads_prefixed ht h hdot
  | name word => exact stops_of_reads_word (t := .name word) ht.1 h hdot
  | uri _ | quoted _ => trivial
  | number digits => exact stops_of_reads_number ht h hdot
  | boolean value =>
    cases value <;> exact stops_of_reads_word (isWord_of_mem_reserved (by decide)) h hdot
  | language tag => exact stops_of_reads_language ht h
  | comparison relation =>
    cases relation with
    | lt => exact endsBefore_of_reads_lt h
    | gt => exact endsBefore_of_reads_gt h
    | eq | ne | le | ge => trivial
  | mark m =>
    cases m with
    | conjunction | membership =>
      exact stops_of_reads_word (isWord_of_mem_reserved (by decide)) h hdot
    | openBrace | closeBrace | openBracket | closeBracket | comma | plus | minus | star |
      datatype => trivial

/-- What comes first is a blank, or else it is what comes first in `rest`. -/
def Loosens (rest rest' : List Char) : Prop :=
  ∀ c ∈ rest'.head?, Text.isBlank c = true ∨ c ∈ rest.head?

theorem not_of_isBlank (hp : Text.blanks.any p = false) (hc : Text.isBlank c = true) :
    p c = false :=
  Bool.eq_false_iff.mpr (List.any_eq_false.mp hp c (Text.mem_blanks_of_isBlank hc))

theorem Loosens.stops (hloose : Loosens rest rest') (hp : Text.blanks.any p = false)
    (h : Stops p rest) : Stops p rest' := by
  intro c hc
  rcases hloose c hc with hblank | hsame
  · exact not_of_isBlank hp hblank
  · exact h c hsame

theorem Loosens.head?_ne (hloose : Loosens rest rest') (hc : Text.isBlank c = false)
    (h : rest.head? ≠ some c) : rest'.head? ≠ some c := by
  intro hhead
  rcases hloose c hhead with hblank | hsame
  · rw [hc] at hblank
    cases hblank
  · exact h hsame

theorem EndsBefore.loosens (h : EndsBefore t rest) (hloose : Loosens rest rest')
    (hopen : t = .comparison .lt → uriBody? rest' = none) : EndsBefore t rest' := by
  have hword : Stops isWordChar rest → Stops isWordChar rest' := hloose.stops (by decide +kernel)
  cases t with
  | prefixed _ _ => exact hloose.stops (by decide +kernel) h
  | name _ | boolean _ => exact hword h
  | uri _ | quoted _ => trivial
  | number _ => exact hloose.stops (by decide +kernel) h
  | language _ => exact hloose.stops (by decide +kernel) h
  | comparison relation =>
    cases relation with
    | lt =>
      obtain ⟨heq, hgt, _⟩ := h
      exact ⟨hloose.head?_ne (by decide) heq, hloose.head?_ne (by decide) hgt, hopen rfl⟩
    | gt => exact hloose.head?_ne (by decide) h
    | eq | ne | le | ge => trivial
  | mark m =>
    cases m with
    | conjunction | membership => exact hword h
    | openBrace | closeBrace | openBracket | closeBracket | comma | plus | minus | star |
      datatype => trivial

end ResourceQuery.Reading
