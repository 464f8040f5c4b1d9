import ResourceQuery.Proofs.Lexer.Extents
import ResourceQuery.Proofs.Token.Characters

/-!
# Reading one token

Whatever token is read is well formed. The other way round, a well-formed token that stands at
the front of a text is read as a whole as soon as what follows cannot go on with it. What that
takes depends on the token: a name ends before what is no name character, and `<` is a token by
itself only where no URI reference opens.
-/

namespace ResourceQuery.Reading

set_option autoImplicit false

open Token

variable {c : Char} {cs w rest pfx : List Char} {t : Token} {n : Nat}

theorem wellFormed_of_ofLocal (hpfx : pfx = [] ∨ IsWord pfx) (h : ofLocal pfx rest = .token t n) :
    t.WellFormed := by
  unfold ofLocal at h
  simp only at h
  split at h
  · cases h
  · rename_i hne
    cases h
    simp only [WellFormed, String.toList_ofList]
    refine ⟨?_, isLocalName_nameRun (mt List.isEmpty_iff.mpr hne)⟩
    rcases hpfx with rfl | hpfx
    · exact Or.inl rfl
    · exact Or.inr hpfx

theorem wellFormed_of_ofWord (hc : isNameStart c = true) (h : ofWord (c :: rest) = .token t n) :
    t.WellFormed := by
  have hword : IsWord (nameRun (c :: rest)) := isWord_nameRun hc
  unfold ofWord at h
  simp only at h
  split at h
  · exact wellFormed_of_ofLocal (Or.inr hword) h
  · cases h
    apply wellFormed_ofWord
    rwa [String.toList_ofList]

theorem wellFormed_of_ofLess (h : ofLess rest = .token t n) : t.WellFormed := by
  unfold ofLess at h
  split at h
  · cases h
    trivial
  · cases h
  · rename_i heq hgt
    split at h
    · rename_i body hbody
      cases h
      obtain ⟨after, rfl, hchars⟩ := uriBody?_eq_some_iff.mp hbody
      simp only [WellFormed, String.toList_ofList]
      cases body with
      | nil => exact absurd rfl (hgt after)
      | cons c body =>
        refine ⟨List.cons_ne_nil _ _, hchars, ?_⟩
        rintro ⟨⟩
        exact heq _ rfl
    · cases h
      trivial

theorem wellFormed_of_ofQuote (h : ofQuote rest = .token t n) : t.WellFormed := by
  unfold ofQuote at h
  split at h
  · rename_i body hbody
    cases h
    simp only [WellFormed, String.toList_ofList]
    exact (quotedBody?_eq_some_iff.mp hbody).1
  · cases h

theorem wellFormed_of_ofAt (h : ofAt rest = .token t n) : t.WellFormed := by
  unfold ofAt at h
  simp only at h
  split at h
  · rename_i htag
    cases h
    simp only [WellFormed, String.toList_ofList]
    exact isLanguageTag_iff.mp htag
  · cases h

theorem wellFormed_of_sign? (h : sign? c = some t) : t.WellFormed := by
  unfold sign? at h
  split at h <;> cases h <;> trivial

theorem wellFormed_of_ofChars (h : ofChars c rest = .token t n) : t.WellFormed := by
  unfold ofChars at h
  split at h
  · rename_i hsign
    cases h
    exact wellFormed_of_sign? hsign
  · split at h
    · unfold ofBang at h
      split at h <;> cases h
      trivial
    · unfold ofGreater at h
      split at h <;> cases h <;> trivial
    · exact wellFormed_of_ofLess h
    · unfold ofCaret at h
      split at h <;> cases h
      trivial
    · exact wellFormed_of_ofAt h
    · exact wellFormed_of_ofQuote h
    · exact wellFormed_of_ofLocal (Or.inl rfl) h
    · split at h
      · rename_i hdigit
        cases h
        simp only [WellFormed, String.toList_ofList]
        exact isNumeral_numberRun hdigit
      · split at h
        · rename_i hstart
          exact wellFormed_of_ofWord hstart h
        · cases h

/-- The characters that begin a token of a fixed shape. -/
def openers : List Char :=
  [',', '+', '-', '*', '{', '}', '[', ']', '=', '!', '>', '<', '^', '@', '"', ':']

theorem ofChars_of_notMem_openers (h : c ∉ openers) :
    ofChars c rest =
      if c.isDigit then ofNumber (c :: rest)
      else if isNameStart c then ofWord (c :: rest)
      else .fault (.unexpected c) 1 0 := by
  have hsign : sign? c = none := by
    unfold sign?
    split <;> first | rfl | exact absurd (by decide) h
  unfold ofChars
  rw [hsign]
  simp only
  split
  all_goals first | rfl | exact absurd (by decide) h

theorem ofChars_of_isDigit (h : c.isDigit = true) : ofChars c rest = ofNumber (c :: rest) := by
  have hnone : openers.any Char.isDigit = false := by decide
  have hc : c ∉ openers := fun hmem => List.any_eq_false.mp hnone c hmem h
  rw [ofChars_of_notMem_openers hc, if_pos h]

theorem ofChars_of_isNameStart (h : isNameStart c = true) :
    ofChars c rest = ofWord (c :: rest) := by
  have hnone : openers.any isNameStart = false := by decide
  have hc : c ∉ openers := fun hmem => List.any_eq_false.mp hnone c hmem h
  rw [ofChars_of_notMem_openers hc,
    if_neg (Bool.eq_false_iff.mp (not_isDigit_of_isNameStart h)), if_pos h]

theorem ofLocal_append (hw : IsLocalName w) (h : Stops isNameChar rest) :
    ofLocal pfx (w ++ rest) =
      .token (.prefixed (String.ofList pfx) (String.ofList w)) (pfx.length + 1 + w.length) := by
  unfold ofLocal
  simp only [nameRun_append hw h]
  rw [if_neg (mt List.isEmpty_iff.mp hw.nonempty)]

def isWordChar (c : Char) : Bool := isNameChar c || c == ':'

theorem ofWord_append (hw : IsWord w) (h : Stops isWordChar rest) :
    ofWord (w ++ rest) = .token (Token.ofWord (String.ofList w)) w.length := by
  have hname : Stops isNameChar rest := by
    intro c hc
    exact (Bool.or_eq_false_iff.mp (h c hc)).1
  unfold ofWord
  simp only [nameRun_append hw.toIsLocalName hname, List.drop_left]
  split
  · exact absurd (h ':' rfl) (by decide)
  · rfl

theorem ofWord_append_colon (hw : IsWord w) : ofWord (w ++ ':' :: rest) = ofLocal w rest := by
  have hcolon : Stops isNameChar (':' :: rest) := stops_cons (by decide)
  unfold ofWord
  simp only [nameRun_append hw.toIsLocalName hcolon, List.drop_left]

/-- What may follow a token so that it is not read as something longer. -/
def EndsBefore : Token → List Char → Prop
  | prefixed _ _, rest => Stops isNameChar rest
  | name _, rest | boolean _, rest | mark .conjunction, rest | mark .membership, rest =>
    Stops isWordChar rest
  | number _, rest => Stops isNumeralChar rest
  | language _, rest => Stops isTagChar rest
  | comparison .lt, rest =>
    rest.head? ≠ some '=' ∧ rest.head? ≠ some '>' ∧ uriBody? rest = none
  | comparison .gt, rest => rest.head? ≠ some '='
  | uri _, _ | quoted _, _ | comparison _, _ | mark _, _ => True

/-- The token is read where its own text stands before `rest`. -/
def Reads (t : Token) (rest : List Char) : Prop :=
  ∃ c cs, t.text.toList ++ rest = c :: cs ∧ Text.isBlank c = false ∧
    ofChars c cs = .token t t.text.toList.length

theorem reads_of_isWord (hw : IsWord t.text.toList) (ht : Token.ofWord t.text = t)
    (h : Stops isWordChar rest) : Reads t rest := by
  obtain ⟨c, cs, htext⟩ := List.exists_cons_of_ne_nil hw.nonempty
  have hc : isNameStart c = true := hw.start c (by rw [htext]; rfl)
  refine ⟨c, cs ++ rest, by rw [htext]; rfl,
    not_isBlank_of_isNameChar (isNameChar_of_isNameStart hc), ?_⟩
  rw [ofChars_of_isNameStart hc, ← List.cons_append, ← htext, ofWord_append hw h,
    String.ofList_toList, ht]

theorem reads_prefixed {pfx localName : String} (ht : (prefixed pfx localName).WellFormed)
    (h : Stops isNameChar rest) : Reads (.prefixed pfx localName) rest := by
  obtain ⟨hpfx, hlocal⟩ := ht
  have htext : (prefixed pfx localName).text.toList = pfx.toList ++ ':' :: localName.toList := by
    simp [text]
  rcases hpfx with rfl | hpfx
  · refine ⟨':', localName.toList ++ rest, by rw [htext]; rfl, by decide, ?_⟩
    have hread : ofChars ':' (localName.toList ++ rest) = ofLocal [] (localName.toList ++ rest) :=
      rfl
    rw [hread, ofLocal_append hlocal h, htext, String.ofList_toList]
    simp [Nat.add_comm]
  · obtain ⟨c, cs, hcs⟩ := List.exists_cons_of_ne_nil hpfx.nonempty
    have hc : isNameStart c = true := hpfx.start c (by rw [hcs]; rfl)
    refine ⟨c, cs ++ ':' :: (localName.toList ++ rest), by rw [htext, hcs]; simp,
      not_isBlank_of_isNameChar (isNameChar_of_isNameStart hc), ?_⟩
    rw [ofChars_of_isNameStart hc, ← List.cons_append, ← hcs, ofWord_append_colon hpfx,
      ofLocal_append hlocal h, htext, String.ofList_toList, String.ofList_toList]
    simp only [List.length_append, List.length_cons]
    rw [Nat.add_right_comm, Nat.add_assoc]

theorem reads_uri {reference : String} (ht : IsReference reference.toList) :
    Reads (.uri reference) rest := by
  have htext : (uri reference).text.toList = '<' :: (reference.toList ++ ['>']) := by simp [text]
  refine ⟨'<', reference.toList ++ '>' :: rest, by rw [htext]; simp, by decide, ?_⟩
  have hbody : uriBody? (reference.toList ++ '>' :: rest) = some reference.toList :=
    uriBody?_eq_some_iff.mpr ⟨rest, rfl, ht.chars⟩
  have hread : ofChars '<' (reference.toList ++ '>' :: rest) =
      ofLess (reference.toList ++ '>' :: rest) := rfl
  obtain ⟨c, cs, hcs⟩ := List.exists_cons_of_ne_nil ht.nonempty
  rw [hread, htext]
  unfold ofLess
  split
  · rename_i heq
    rw [hcs] at heq
    cases heq
    exact absurd (by rw [hcs]; rfl) ht.head
  · rename_i heq
    have hgt := ht.chars '>' (by rw [hcs] at heq ⊢; cases heq; exact List.mem_cons_self)
    exact absurd hgt (by decide)
  · rw [hbody]
    simp

theorem reads_quoted {body : String} (ht : IsBody body.toList) : Reads (.quoted body) rest := by
  have htext : (quoted body).text.toList = '"' :: (body.toList ++ ['"']) := by simp [text]
  refine ⟨'"', body.toList ++ '"' :: rest, by rw [htext]; simp, by decide, ?_⟩
  have hbody : quotedBody? (body.toList ++ '"' :: rest) = some body.toList :=
    quotedBody?_eq_some_iff.mpr ⟨ht, rest, rfl⟩
  have hread : ofChars '"' (body.toList ++ '"' :: rest) = ofQuote (body.toList ++ '"' :: rest) :=
    rfl
  rw [hread, htext, ofQuote, hbody]
  simp

theorem reads_number {digits : String} (ht : IsNumeral digits.toList)
    (h : Stops isNumeralChar rest) : Reads (.number digits) rest := by
  obtain ⟨c, cs, hcs, hc⟩ := ht.exists_digit_cons
  have htext : (number digits).text.toList = digits.toList := rfl
  refine ⟨c, cs ++ rest, by rw [htext, hcs]; rfl,
    not_isBlank_of_isNameChar (isNameChar_of_isDigit hc), ?_⟩
  rw [ofChars_of_isDigit hc, ← List.cons_append, ← hcs, ofNumber]
  simp only [numberRun_append ht h, String.ofList_toList, htext]

theorem reads_language {tag : String} (ht : IsTag tag.toList) (h : Stops isTagChar rest) :
    Reads (.language tag) rest := by
  have htext : (language tag).text.toList = '@' :: tag.toList := by simp [text]
  refine ⟨'@', tag.toList ++ rest, by rw [htext]; rfl, by decide, ?_⟩
  have hread : ofChars '@' (tag.toList ++ rest) = ofAt (tag.toList ++ rest) := rfl
  rw [hread, htext, ofAt]
  simp only [takeWhile_append_of_stops (isTagChar_of_isTag ht) h]
  rw [if_pos (isLanguageTag_iff.mpr ht), String.ofList_toList]
  rfl

theorem reads_lt (h : EndsBefore (.comparison .lt) rest) : Reads (.comparison .lt) rest := by
  obtain ⟨heq, hgt, hbody⟩ := h
  refine ⟨'<', rest, rfl, by decide, ?_⟩
  have hread : ofChars '<' rest = ofLess rest := rfl
  rw [hread]
  unfold ofLess
  split
  · exact absurd rfl heq
  · exact absurd rfl hgt
  · rw [hbody]
    rfl

theorem reads_gt (h : EndsBefore (.comparison .gt) rest) : Reads (.comparison .gt) rest := by
  refine ⟨'>', rest, rfl, by decide, ?_⟩
  have hread : ofChars '>' rest = ofGreater rest := rfl
  rw [hread]
  unfold ofGreater
  split
  · exact absurd rfl h
  · rfl

theorem reads_of_endsBefore (ht : t.WellFormed) (h : EndsBefore t rest) : Reads t rest := by
  cases t with
  | prefixed pfx localName => exact reads_prefixed ht h
  | name word => exact reads_of_isWord ht.1 (ofWord_of_notMem_reserved ht.2) h
  | uri reference => exact reads_uri ht
  | quoted body => exact reads_quoted ht
  | number digits => exact reads_number ht h
  | boolean value =>
    cases value with
    | false => exact reads_of_isWord (isWord_of_mem_reserved (by decide)) rfl h
    | true => exact reads_of_isWord (isWord_of_mem_reserved (by decide)) rfl h
  | language tag => exact reads_language ht h
  | comparison relation =>
    cases relation with
    | lt => exact reads_lt h
    | gt => exact reads_gt h
    | eq | ne | le | ge => exact ⟨_, _, rfl, by decide, rfl⟩
  | mark m =>
    cases m with
    | conjunction => exact reads_of_isWord (isWord_of_mem_reserved (by decide)) rfl h
    | membership => exact reads_of_isWord (isWord_of_mem_reserved (by decide)) rfl h
    | openBrace | closeBrace | openBracket | closeBracket | comma | plus | minus | star |
      datatype => exact ⟨_, _, rfl, by decide, rfl⟩

end ResourceQuery.Reading
