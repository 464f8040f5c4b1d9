import ResourceQuery.Proofs.Lexer.OneToken

/-!
# A token is spelled where it is read, and no longer one is

The characters that a reader passes over are the spelling of the token that it gives, so nothing
of a text is lost. And whatever well-formed token has its spelling at the front of a text, the
token that is read there is at least as long: names and numbers are read as far as they go, a
name with a colon after it is not left before its local part, and each sign of two characters
comes before the sign of one.
-/

namespace ResourceQuery.Reading

set_option autoImplicit false

open Token

variable {c : Char} {cs w rest pfx : List Char} {t u : Token} {n : Nat}

theorem numberRun_prefix : numberRun cs <+: cs := by
  have hsplit := List.takeWhile_append_dropWhile (p := Char.isDigit) (l := cs)
  unfold numberRun
  simp only
  split
  · rename_i after hdrop
    split
    · exact List.takeWhile_prefix _
    · refine ⟨after.dropWhile Char.isDigit, ?_⟩
      rw [List.append_assoc, List.cons_append, List.takeWhile_append_dropWhile, ← hdrop, hsplit]
  · exact List.takeWhile_prefix _

/-- The token is what the characters begin with, and its spelling is `n` characters long. -/
def Spelled (t : Token) (n : Nat) (cs : List Char) : Prop :=
  t.text.toList <+: cs ∧ t.text.toList.length = n

theorem spelled_of_ofLocal (h : ofLocal pfx rest = .token t n) :
    Spelled t n (pfx ++ ':' :: rest) := by
  unfold ofLocal at h
  simp only at h
  split at h
  · cases h
  · cases h
    have htext : (prefixed (String.ofList pfx) (String.ofList (nameRun rest))).text.toList =
        pfx ++ ':' :: nameRun rest := by
      simp [text]
    refine ⟨?_, ?_⟩
    · rw [htext, List.prefix_append_right_inj, List.cons_prefix_cons]
      exact ⟨rfl, nameRun_prefix⟩
    · rw [htext, List.length_append, List.length_cons]
      omega

theorem spelled_of_ofWord (h : ofWord cs = .token t n) : Spelled t n cs := by
  obtain ⟨after, hafter⟩ : nameRun cs <+: cs := nameRun_prefix
  have hdrop : after = cs.drop (nameRun cs).length := by
    have h := congrArg (List.drop (nameRun cs).length) hafter
    rwa [List.drop_left] at h
  unfold ofWord at h
  simp only [← hdrop] at h
  split at h
  · rw [← hafter]
    exact spelled_of_ofLocal h
  · cases h
    rw [Spelled, Token.text_ofWord, String.toList_ofList]
    exact And.intro nameRun_prefix rfl

theorem spelled_of_ofLess (h : ofLess rest = .token t n) : Spelled t n ('<' :: rest) := by
  unfold ofLess at h
  split at h
  · cases h
    exact ⟨⟨_, rfl⟩, rfl⟩
  · cases h
  · split at h
    · rename_i body hbody
      cases h
      obtain ⟨after, rfl, _⟩ := uriBody?_eq_some_iff.mp hbody
      have htext : (uri (String.ofList body)).text.toList = '<' :: (body ++ ['>']) := by
        simp [text]
      rw [Spelled, htext]
      exact ⟨⟨after, by simp⟩, by simp⟩
    · cases h
      exact ⟨⟨_, rfl⟩, rfl⟩

theorem spelled_of_ofQuote (h : ofQuote rest = .token t n) : Spelled t n ('"' :: rest) := by
  unfold ofQuote at h
  split at h
  · rename_i body hbody
    cases h
    obtain ⟨_, after, rfl⟩ := quotedBody?_eq_some_iff.mp hbody
    have htext : (quoted (String.ofList body)).text.toList = '"' :: (body ++ ['"']) := by
      simp [text]
    rw [Spelled, htext]
    exact ⟨⟨after, by simp⟩, by simp⟩
  · cases h

theorem spelled_of_ofAt (h : ofAt rest = .token t n) : Spelled t n ('@' :: rest) := by
  unfold ofAt at h
  simp only at h
  split at h
  · cases h
    have htext : (language (String.ofList (rest.takeWhile isTagChar))).text.toList =
        '@' :: rest.takeWhile isTagChar := by
      simp [text]
    rw [Spelled, htext, List.cons_prefix_cons]
    exact ⟨⟨rfl, List.takeWhile_prefix _⟩, rfl⟩
  · cases h

theorem spelled_of_sign? (h : sign? c = some t) : Spelled t 1 (c :: rest) := by
  unfold sign? at h
  split at h <;> cases h <;> exact ⟨⟨rest, rfl⟩, rfl⟩

theorem spelled_of_ofChars (h : ofChars c rest = .token t n) : Spelled t n (c :: rest) := by
  unfold ofChars at h
  split at h
  · rename_i hsign
    cases h
    exact spelled_of_sign? hsign
  · split at h
    · unfold ofBang at h
      split at h <;> cases h
      exact ⟨⟨_, rfl⟩, rfl⟩
    · unfold ofGreater at h
      split at h <;> cases h <;> exact ⟨⟨_, rfl⟩, rfl⟩
    · exact spelled_of_ofLess h
    · unfold ofCaret at h
      split at h <;> cases h
      exact ⟨⟨_, rfl⟩, rfl⟩
    · exact spelled_of_ofAt h
    · exact spelled_of_ofQuote h
    · exact spelled_of_ofLocal h
    · split at h
      · cases h
        refine ⟨?_, ?_⟩ <;> simp only [text, String.toList_ofList]
        exact numberRun_prefix
      · split at h
        · exact spelled_of_ofWord h
        · cases h

/-- What has been read, and what is left. -/
theorem append_of_ofChars (h : ofChars c rest = .token t n) :
    c :: rest = t.text.toList ++ (c :: rest).drop n := by
  obtain ⟨⟨after, hafter⟩, hlength⟩ := spelled_of_ofChars h
  rw [← hafter, ← hlength, List.drop_left]

/-- A run is cut only behind full stops, and a name does not end in one. -/
theorem length_le_nameRun (hw : IsLocalName w) (h : w <+: cs) : w.length ≤ (nameRun cs).length := by
  obtain ⟨after, rfl⟩ := h
  have hlast : (w.reverse).dropWhile (· == '.') = w.reverse := by
    obtain ⟨d, ds, hrev⟩ := List.exists_cons_of_ne_nil (mt List.reverse_eq_nil_iff.mp hw.nonempty)
    have hd : d ≠ '.' := by
      rintro rfl
      apply hw.last
      rw [List.getLast?_eq_head?_reverse, hrev]
      rfl
    rw [hrev, List.dropWhile_cons, if_neg (by simpa using hd)]
  unfold nameRun
  rw [List.takeWhile_append_of_pos hw.chars, List.reverse_append, List.dropWhile_append, hlast]
  split
  · simp
  · simp only [List.length_reverse, List.length_append]
    omega

theorem length_le_numberRun (hw : IsNumeral w) (h : w <+: cs) :
    w.length ≤ (numberRun cs).length := by
  obtain ⟨after, rfl⟩ := h
  cases hw with
  | whole hds =>
    have hwhole : w.length ≤ ((w ++ after).takeWhile Char.isDigit).length := by
      rw [List.takeWhile_append_of_pos hds.digits, List.length_append]
      omega
    unfold numberRun
    simp only
    split
    · split
      · exact hwhole
      · rw [List.length_append]
        omega
    · exact hwhole
  | @fraction ds fs hds hfs =>
    have hpoint : Stops Char.isDigit ('.' :: (fs ++ after)) := stops_cons (by decide)
    have hsplit : ds ++ '.' :: fs ++ after = ds ++ '.' :: (fs ++ after) := by simp
    have hfraction : (fs ++ after).takeWhile Char.isDigit =
        fs ++ after.takeWhile Char.isDigit := List.takeWhile_append_of_pos hfs.digits
    unfold numberRun
    simp only [hsplit, takeWhile_append_of_stops hds.digits hpoint,
      dropWhile_append_of_stops hds.digits hpoint, hfraction]
    rw [if_neg (by simp [hfs.nonempty])]
    simp only [List.length_append, List.length_cons]
    omega

theorem length_le_of_ofLocal (hw : IsLocalName w) (h : w <+: rest)
    (hread : ofLocal pfx rest = .token t n) : pfx.length + 1 + w.length ≤ n := by
  have hlength := length_le_nameRun hw h
  unfold ofLocal at hread
  simp only at hread
  split at hread
  · cases hread
  · cases hread
    omega

theorem length_le_of_isWord (hw : IsWord w) (h : w <+: c :: rest)
    (hread : ofChars c rest = .token t n) : w.length ≤ n := by
  have hc : isNameStart c = true := by
    obtain ⟨d, ds, rfl⟩ := List.exists_cons_of_ne_nil hw.nonempty
    obtain ⟨rfl, _⟩ := List.cons_prefix_cons.mp h
    exact hw.start d rfl
  have hlength := length_le_nameRun hw.toIsLocalName h
  rw [ofChars_of_isNameStart hc] at hread
  unfold ofWord at hread
  simp only at hread
  split at hread
  · unfold ofLocal at hread
    simp only at hread
    split at hread <;> cases hread
    omega
  · cases hread
    exact hlength

theorem length_le_of_prefixed {pfx localName : String}
    (hu : (prefixed pfx localName).WellFormed)
    (h : (prefixed pfx localName).text.toList <+: c :: rest)
    (hread : ofChars c rest = .token t n) : (prefixed pfx localName).text.toList.length ≤ n := by
  obtain ⟨hpfx, hlocal⟩ := hu
  obtain ⟨after, hafter⟩ := h
  have htext : (prefixed pfx localName).text.toList = pfx.toList ++ ':' :: localName.toList := by
    simp [text]
  rw [htext] at hafter ⊢
  simp only [List.append_assoc, List.cons_append] at hafter
  have hlength : pfx.toList.length + 1 + localName.toList.length ≤ n := by
    rcases hpfx with rfl | hpfx
    · obtain ⟨rfl, rfl⟩ := List.cons.inj hafter
      have hle : ([] : List Char).length + 1 + localName.toList.length ≤ n :=
        length_le_of_ofLocal hlocal (List.prefix_append _ _) hread
      exact hle
    · obtain ⟨d, ds, hds⟩ := List.exists_cons_of_ne_nil hpfx.nonempty
      have hc : isNameStart c = true := by
        rw [hds] at hafter
        obtain ⟨rfl, _⟩ := List.cons.inj hafter
        exact hpfx.start d (by rw [hds]; rfl)
      rw [ofChars_of_isNameStart hc, ← hafter, ofWord_append_colon hpfx] at hread
      exact length_le_of_ofLocal hlocal (List.prefix_append _ _) hread
  simpa [Nat.add_assoc, Nat.add_comm 1] using hlength

theorem length_le_of_number {digits : String} (hu : IsNumeral digits.toList)
    (h : digits.toList <+: c :: rest) (hread : ofChars c rest = .token t n) :
    digits.toList.length ≤ n := by
  have hc : c.isDigit = true := by
    obtain ⟨d, ds, hds, hd⟩ := hu.exists_digit_cons
    rw [hds] at h
    obtain ⟨rfl, _⟩ := List.cons_prefix_cons.mp h
    exact hd
  rw [ofChars_of_isDigit hc] at hread
  cases hread
  exact length_le_numberRun hu h

theorem length_le_of_language {tag : String} (hu : IsTag tag.toList)
    (h : (language tag).text.toList <+: c :: rest) (hread : ofChars c rest = .token t n) :
    (language tag).text.toList.length ≤ n := by
  obtain ⟨after, hafter⟩ := h
  have htext : (language tag).text.toList = '@' :: tag.toList := by simp [text]
  rw [htext] at hafter ⊢
  obtain ⟨rfl, rfl⟩ := List.cons.inj hafter
  have hread' : ofAt (tag.toList ++ after) = .token t n := hread
  unfold ofAt at hread'
  simp only [List.takeWhile_append_of_pos (isTagChar_of_isTag hu)] at hread'
  split at hread' <;> cases hread'
  simp only [List.length_cons, List.length_append]
  omega

/-- Where the reader of a token does not look at what follows, the token itself is read. -/
theorem length_le_of_reads (hreads : ∀ after, Reads u after) (h : u.text.toList <+: c :: rest)
    (hread : ofChars c rest = .token t n) : u.text.toList.length ≤ n := by
  obtain ⟨after, hafter⟩ := h
  obtain ⟨d, ds, hds, _, hread'⟩ := hreads after
  rw [hafter] at hds
  cases hds
  rw [hread] at hread'
  cases hread'
  omega

theorem length_le_of_ofChars (hu : u.WellFormed) (h : u.text.toList <+: c :: rest)
    (hread : ofChars c rest = .token t n) : u.text.toList.length ≤ n := by
  have hpos : 1 ≤ n := ofChars_length_pos hread
  cases u with
  | prefixed pfx localName => exact length_le_of_prefixed hu h hread
  | name word => exact length_le_of_isWord hu.1 h hread
  | uri reference => exact length_le_of_reads (fun _ => reads_uri hu) h hread
  | quoted body => exact length_le_of_reads (fun _ => reads_quoted hu) h hread
  | number digits => exact length_le_of_number hu h hread
  | boolean value =>
    cases value <;> exact length_le_of_isWord (isWord_of_mem_reserved (by decide)) h hread
  | language tag => exact length_le_of_language hu h hread
  | comparison relation =>
    cases relation with
    | lt | gt => exact hpos
    | eq | ne | le | ge =>
      exact length_le_of_reads (fun _ => reads_of_endsBefore trivial trivial) h hread
  | mark m =>
    cases m with
    | conjunction | membership =>
      exact length_le_of_isWord (isWord_of_mem_reserved (by decide)) h hread
    | openBrace | closeBrace | openBracket | closeBracket | comma | plus | minus | star |
      datatype => exact length_le_of_reads (fun _ => reads_of_endsBefore trivial trivial) h hread

theorem ofLess_of_isReference {reference : List Char} (href : IsReference reference)
    (h : reference ++ ['>'] <+: rest) (hread : ofChars '<' rest = .token t n) :
    t = .uri (String.ofList reference) := by
  obtain ⟨after, rfl⟩ := h
  have href' : IsReference (String.ofList reference).toList := by
    rwa [String.toList_ofList]
  have hreads : Reads (.uri (String.ofList reference)) after := reads_uri href'
  obtain ⟨d, ds, hds, _, hread'⟩ := hreads
  have htext : (uri (String.ofList reference)).text.toList ++ after =
      '<' :: (reference ++ ['>'] ++ after) := by
    simp [text]
  rw [htext] at hds
  cases hds
  rw [hread] at hread'
  cases hread'
  rfl

/-- Where `<` opens no URI reference it is a comparison. -/
theorem comparison_of_ofLess
    (hnone : ∀ reference, IsReference reference → ¬ reference ++ ['>'] <+: rest)
    (hread : ofChars '<' rest = .token t n) : t = .comparison .lt ∨ t = .comparison .le := by
  have hwell := wellFormed_of_ofChars hread
  have hread' : ofLess rest = .token t n := hread
  unfold ofLess at hread'
  split at hread'
  · cases hread'
    exact Or.inr rfl
  · cases hread'
  · split at hread'
    · rename_i body hbody
      cases hread'
      obtain ⟨after, rfl, _⟩ := uriBody?_eq_some_iff.mp hbody
      have href : IsReference body := by simpa [WellFormed] using hwell
      exact absurd ⟨after, by simp⟩ (hnone body href)
    · cases hread'
      exact Or.inl rfl

end ResourceQuery.Reading
