import Mathlib.Data.List.DropRight
import ResourceQuery.Lexer
import ResourceQuery.Proofs.Token.WellFormed

/-!
# What the readers of the lexer find

For each shape of token, what its reader finds at the front of a text has that shape, and
characters of that shape are found as a whole if what follows them cannot belong to them.
`Stops p cs` says of what follows that a run of characters of the class `p` ends before it.
-/

namespace ResourceQuery.Reading

set_option autoImplicit false

open Token

variable {p : Char → Bool} {cs w rest body : List Char} {c : Char}

/-- No character of the class comes first. -/
def Stops (p : Char → Bool) (cs : List Char) : Prop := ∀ c ∈ cs.head?, p c = false

theorem stops_nil : Stops p [] := nofun

theorem stops_cons (h : p c = false) : Stops p (c :: cs) := by
  intro d hd
  cases hd
  exact h

theorem takeWhile_append_of_stops (hw : ∀ c ∈ w, p c = true) (h : Stops p rest) :
    (w ++ rest).takeWhile p = w := by
  have hrest : rest.takeWhile p = [] := by
    cases rest with
    | nil => rfl
    | cons c cs => rw [List.takeWhile_cons, h c rfl, if_neg Bool.false_ne_true]
  rw [List.takeWhile_append_of_pos hw, hrest, List.append_nil]

theorem dropWhile_append_of_stops (hw : ∀ c ∈ w, p c = true) (h : Stops p rest) :
    (w ++ rest).dropWhile p = rest := by
  rw [List.dropWhile_append_of_pos hw]
  cases rest with
  | nil => rfl
  | cons c cs => rw [List.dropWhile_cons, h c rfl, if_neg Bool.false_ne_true]

theorem stops_dropWhile : Stops p (cs.dropWhile p) := by
  intro c hc
  have h := List.head?_dropWhile_not p cs
  rw [Option.mem_def.mp hc] at h
  exact h

theorem nameRun_eq_rdropWhile : nameRun cs = (cs.takeWhile isNameChar).rdropWhile (· == '.') := rfl

theorem nameRun_prefix : nameRun cs <+: cs :=
  List.rdropWhile_prefix _ _ |>.trans (List.takeWhile_prefix _)

theorem isLocalName_nameRun (hne : nameRun cs ≠ []) : IsLocalName (nameRun cs) := by
  refine ⟨hne, ?_, ?_⟩
  · intro c hc
    exact List.mem_takeWhile_imp ((List.rdropWhile_prefix _ _).subset hc)
  · rw [List.getLast?_eq_some_getLast hne]
    intro hlast
    have hnot := List.rdropWhile_last_not _ _ hne
    exact hnot (beq_iff_eq.mpr (Option.some.inj hlast))

/-- The full stops at the end of a run of name characters are given back, and nothing else. -/
theorem nameRun_append (hw : IsLocalName w) (h : Stops isNameChar rest) :
    nameRun (w ++ rest) = w := by
  rw [nameRun_eq_rdropWhile, takeWhile_append_of_stops hw.chars h, List.rdropWhile_eq_self_iff]
  intro hne hdot
  apply hw.last
  rw [List.getLast?_eq_some_getLast hne, beq_iff_eq.mp hdot]

theorem isWord_nameRun (h : isNameStart c = true) : IsWord (nameRun (c :: cs)) := by
  have hne : nameRun (c :: cs) ≠ [] := nameRun_ne_nil h
  refine ⟨isLocalName_nameRun hne, ?_⟩
  obtain ⟨d, ds, hrun⟩ := List.exists_cons_of_ne_nil hne
  have hprefix : d :: ds <+: c :: cs := hrun ▸ nameRun_prefix
  obtain ⟨rfl, _⟩ := List.cons_prefix_cons.mp hprefix
  rw [hrun]
  intro e he
  cases he
  exact h

theorem uriBody?_eq_some_iff :
    uriBody? cs = some body ↔ ∃ rest, cs = body ++ '>' :: rest ∧ ∀ c ∈ body, isUriChar c = true := by
  unfold uriBody?
  constructor
  · intro h
    split at h
    · rename_i rest hdrop
      cases h
      refine ⟨rest, ?_, fun c hc => List.mem_takeWhile_imp hc⟩
      rw [← hdrop, List.takeWhile_append_dropWhile]
    · cases h
  · rintro ⟨rest, rfl, hbody⟩
    have hstops : Stops isUriChar ('>' :: rest) := stops_cons (by decide)
    rw [dropWhile_append_of_stops hbody hstops, takeWhile_append_of_stops hbody hstops]
    rfl

/-- No URI reference opens before characters that no `>` follows. -/
theorem uriBody?_append_eq_none (hw : ∀ c ∈ w, isUriChar c = true) (h : Stops isUriChar rest)
    (hgt : rest.head? ≠ some '>') : uriBody? (w ++ rest) = none := by
  unfold uriBody?
  rw [dropWhile_append_of_stops hw h]
  cases rest with
  | nil => rfl
  | cons c cs =>
    split
    · rename_i heq
      cases heq
      exact absurd rfl hgt
    · rfl

theorem quotedBody?_eq_some_iff :
    quotedBody? cs = some body ↔ IsBody body ∧ ∃ rest, cs = body ++ '"' :: rest := by
  constructor
  · intro h
    fun_induction quotedBody? cs generalizing body with
    | case1 => cases h
    | case2 rest =>
      cases h
      exact ⟨.nil, rest, rfl⟩
    | case3 c cs ih =>
      obtain ⟨inner, hinner, rfl⟩ := Option.map_eq_some_iff.mp h
      obtain ⟨hbody, rest, rfl⟩ := ih hinner
      exact ⟨.escaped hbody, rest, rfl⟩
    | case4 c cs hquote hescape ih =>
      obtain ⟨inner, hinner, rfl⟩ := Option.map_eq_some_iff.mp h
      obtain ⟨hbody, rest, rfl⟩ := ih hinner
      refine ⟨.plain ?_ ?_ hbody, rest, rfl⟩
      · rintro rfl
        exact hquote rfl
      · rintro rfl
        cases inner with
        | nil => exact hescape _ _ rfl rfl
        | cons d ds => exact hescape _ _ rfl rfl
  · rintro ⟨hbody, rest, rfl⟩
    induction hbody with
    | nil => rfl
    | plain hquote hescape _ ih =>
      rw [List.cons_append, quotedBody?, ih, Option.map_some]
      · exact hquote
      · rintro _ _ rfl
        exact absurd rfl hescape
    | escaped _ ih =>
      rw [List.cons_append, List.cons_append, quotedBody?, ih, Option.map_some]

theorem isDigits_takeWhile (h : cs.takeWhile Char.isDigit ≠ []) :
    IsDigits (cs.takeWhile Char.isDigit) :=
  ⟨h, fun _ hc => List.mem_takeWhile_imp hc⟩

theorem isNumeral_numberRun (h : c.isDigit = true) : IsNumeral (numberRun (c :: cs)) := by
  have hwhole : IsDigits ((c :: cs).takeWhile Char.isDigit) := by
    apply isDigits_takeWhile
    rw [List.takeWhile_cons, if_pos h]
    exact List.cons_ne_nil _ _
  unfold numberRun
  simp only
  split
  · split
    · exact .whole hwhole
    · rename_i hfraction
      exact .fraction hwhole (isDigits_takeWhile (mt List.isEmpty_iff.mpr hfraction))
  · exact .whole hwhole

def isNumeralChar (c : Char) : Bool := c.isDigit || c == '.'

theorem isNumeralChar_of_isNumeral (hw : IsNumeral w) : ∀ c ∈ w, isNumeralChar c = true := by
  have hdigits : ∀ {ds}, IsDigits ds → ∀ c ∈ ds, isNumeralChar c = true := by
    intro ds hds c hc
    rw [isNumeralChar, hds.digits c hc, Bool.true_or]
  cases hw with
  | whole h => exact hdigits h
  | fraction h k =>
    exact List.forall_mem_append.mpr ⟨hdigits h, List.forall_mem_cons.mpr ⟨rfl, hdigits k⟩⟩

theorem stops_isDigit (h : Stops isNumeralChar rest) : Stops Char.isDigit rest := by
  intro c hc
  have := h c hc
  simp_all [isNumeralChar]

theorem numberRun_append (hw : IsNumeral w) (h : Stops isNumeralChar rest) :
    numberRun (w ++ rest) = w := by
  have hdigit := stops_isDigit h
  unfold numberRun
  cases hw with
  | whole hds =>
    simp only [takeWhile_append_of_stops hds.digits hdigit,
      dropWhile_append_of_stops hds.digits hdigit]
    split
    · exact absurd (h '.' rfl) (by decide)
    · rfl
  | @fraction ds fs hds hfs =>
    have hpoint : Stops Char.isDigit ('.' :: (fs ++ rest)) := stops_cons (by decide)
    have hsplit : ds ++ '.' :: fs ++ rest = ds ++ '.' :: (fs ++ rest) := by simp
    simp only [hsplit, takeWhile_append_of_stops hds.digits hpoint,
      dropWhile_append_of_stops hds.digits hpoint, takeWhile_append_of_stops hfs.digits hdigit]
    rw [if_neg (mt List.isEmpty_iff.mp hfs.nonempty)]

theorem ne_hyphen_of_isAlphanum (h : c.isAlphanum = true) : c ≠ '-' := by
  rintro rfl
  exact absurd h (by decide)

theorem ne_hyphen_of_mem_takeWhile (h : c ∈ cs.takeWhile (· != '-')) : c ≠ '-' :=
  bne_iff_ne.mp (List.mem_takeWhile_imp (p := (· != '-')) h)

theorem isAlphanum_of_isAlpha (h : c.isAlpha = true) : c.isAlphanum = true := by
  rw [Char.isAlphanum, h, Bool.true_or]

theorem isTagChar_of_isAlphanum (h : c.isAlphanum = true) : isTagChar c = true := by
  rw [isTagChar, h, Bool.true_or]

theorem isAlphanum_of_isTagChar (h : isTagChar c = true) (hne : c ≠ '-') :
    c.isAlphanum = true := by
  simpa [isTagChar, hne] using h

theorem hyphensLead_append (hw : ∀ c ∈ w, c ≠ '-') :
    hyphensLead (w ++ cs) = hyphensLead cs := by
  induction w with
  | nil => rfl
  | cons c w ih =>
    obtain ⟨hc, hw⟩ := List.forall_mem_cons.mp hw
    rw [List.cons_append, hyphensLead, ih hw]
    · exact fun hdash _ => hc hdash
    · exact fun _ hdash _ => hc hdash

theorem hyphensLead_hyphen (h : hyphensLead ('-' :: cs) = true) :
    cs ≠ [] ∧ cs.head? ≠ some '-' ∧ hyphensLead cs = true := by
  cases cs with
  | nil => cases h
  | cons c cs =>
    have hc : c ≠ '-' := by
      rintro rfl
      cases h
    rw [hyphensLead] at h
    · exact ⟨List.cons_ne_nil _ _, fun hhead => hc (Option.some.inj hhead), h⟩
    · nofun
    · rintro _ _ hcons
      cases hcons
      exact hc rfl

theorem isTagChar_of_isSubtags (h : IsSubtags cs) : ∀ c ∈ cs, isTagChar c = true := by
  induction h with
  | nil => nofun
  | cons _ hpart _ ih =>
    intro c hc
    rcases List.mem_append.mp hc with hc | hc
    · rcases List.mem_cons.mp hc with rfl | hc
      · decide
      · exact isTagChar_of_isAlphanum (hpart c hc)
    · exact ih c hc

theorem hyphensLead_of_isSubtags (h : IsSubtags cs) : hyphensLead cs = true := by
  induction h with
  | nil => rfl
  | @cons part cs hne hpart _ ih =>
    have hnone : ∀ c ∈ part, c ≠ '-' := fun c hc => ne_hyphen_of_isAlphanum (hpart c hc)
    obtain ⟨c, part, rfl⟩ := List.exists_cons_of_ne_nil hne
    have hc : c ≠ '-' := hnone c List.mem_cons_self
    have hrest : hyphensLead (c :: part ++ cs) = hyphensLead cs := hyphensLead_append hnone
    rw [List.cons_append, List.cons_append, hyphensLead, ← List.cons_append, hrest, ih]
    · nofun
    · rintro _ _ hcons
      cases hcons
      exact hc rfl

/-- What is left after the letters in front splits at its hyphens. -/
theorem isSubtags_of_hyphensLead (cs : List Char) (hchars : ∀ c ∈ cs, isTagChar c = true)
    (hlead : hyphensLead cs = true) (hhead : Stops (· != '-') cs) : IsSubtags cs := by
  match cs with
  | [] => exact .nil
  | c :: rest =>
    obtain rfl : c = '-' := by simpa using hhead c rfl
    obtain ⟨hne, hfirst, hlead⟩ := hyphensLead_hyphen hlead
    obtain ⟨_, hchars⟩ := List.forall_mem_cons.mp hchars
    have hsplit := List.takeWhile_append_dropWhile (p := (· != '-')) (l := rest)
    have hnone : ∀ c ∈ rest.takeWhile (· != '-'), c ≠ '-' := fun _ => ne_hyphen_of_mem_takeWhile
    have hpart : rest.takeWhile (· != '-') ≠ [] := by
      obtain ⟨d, rest, rfl⟩ := List.exists_cons_of_ne_nil hne
      have hd : d ≠ '-' := fun h => hfirst (congrArg some h)
      rw [List.takeWhile_cons, if_pos (bne_iff_ne.mpr hd)]
      exact List.cons_ne_nil _ _
    have hlater : IsSubtags (rest.dropWhile (· != '-')) := by
      apply isSubtags_of_hyphensLead
      · exact fun c hc => hchars c ((List.dropWhile_suffix _).subset hc)
      · rw [← hsplit, hyphensLead_append hnone] at hlead
        exact hlead
      · exact stops_dropWhile
    rw [← hsplit]
    refine .cons hpart ?_ hlater
    intro c hc
    exact isAlphanum_of_isTagChar (hchars c ((List.takeWhile_prefix _).subset hc)) (hnone c hc)
termination_by cs.length
decreasing_by
  have := (List.dropWhile_suffix (p := (· != '-')) (l := rest)).length_le
  simp only [List.length_cons]
  omega

theorem isLanguageTag_iff : isLanguageTag cs = true ↔ IsTag cs := by
  have hsplit := List.takeWhile_append_dropWhile (p := (· != '-')) (l := cs)
  have hnone : ∀ c ∈ cs.takeWhile (· != '-'), c ≠ '-' := fun _ => ne_hyphen_of_mem_takeWhile
  simp only [isLanguageTag, Bool.and_eq_true, Bool.not_eq_true', List.all_eq_true]
  constructor
  · rintro ⟨⟨⟨hne, halpha⟩, hchars⟩, hlead⟩
    rw [← hsplit, hyphensLead_append hnone] at hlead
    rw [← hsplit]
    refine .mk (fun hnil => ?_) halpha ?_
    · rw [hnil] at hne
      cases hne
    · apply isSubtags_of_hyphensLead _ _ hlead stops_dropWhile
      exact fun c hc => hchars c ((List.dropWhile_suffix _).subset hc)
  · rintro ⟨hne, hprimary, hsub⟩
    rename_i primary subtags
    have hno : ∀ c ∈ primary, c ≠ '-' := fun c hc =>
      ne_hyphen_of_isAlphanum (isAlphanum_of_isAlpha (hprimary c hc))
    have hstops : Stops (· != '-') subtags := by
      cases hsub with
      | nil => exact stops_nil
      | cons _ _ _ => exact stops_cons rfl
    rw [takeWhile_append_of_stops (fun c hc => bne_iff_ne.mpr (hno c hc)) hstops,
      hyphensLead_append hno]
    refine ⟨⟨⟨?_, hprimary⟩, ?_⟩, hyphensLead_of_isSubtags hsub⟩
    · rw [List.isEmpty_eq_false_iff]
      exact hne
    · intro c hc
      rcases List.mem_append.mp hc with hc | hc
      · exact isTagChar_of_isAlphanum (isAlphanum_of_isAlpha (hprimary c hc))
      · exact isTagChar_of_isSubtags hsub c hc

theorem isTagChar_of_isTag (h : IsTag cs) : ∀ c ∈ cs, isTagChar c = true := by
  have htag := isLanguageTag_iff.mpr h
  simp only [isLanguageTag, Bool.and_eq_true, List.all_eq_true] at htag
  exact htag.1.2

end ResourceQuery.Reading
