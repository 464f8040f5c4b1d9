import ResourceQuery.Proofs.Lexer.Respacing

/-!
# Blanks behind the last token

No token ends with a blank, so the blanks at the end of a text are all behind its last token. There
they neither make a token nor keep one from being read: a text has the same tokens with them and
without them.
-/

namespace ResourceQuery

set_option autoImplicit false

open Reading Lexer

variable {p : Char → Bool} {c : Char} {cs cs' w : List Char} {t : Token} {ts : List Token}
  {gap gap' : Nat → List Char} {i k n : Nat}

/-- No blank comes last. -/
def Trimmed (cs : List Char) : Prop := ∀ c ∈ cs.getLast?, Text.isBlank c = false

theorem Trimmed.append (h : Trimmed cs) (h' : Trimmed cs') : Trimmed (cs ++ cs') := by
  intro c hc
  rw [List.getLast?_append] at hc
  rcases Option.or_eq_some_iff.mp hc with hc | ⟨_, hc⟩
  · exact h' c hc
  · exact h c hc

theorem Trimmed.append_left (hne : cs ≠ []) (h : Trimmed cs) : Trimmed (w ++ cs) := by
  intro c hc
  rw [List.getLast?_append_of_ne_nil _ hne] at hc
  exact h c hc

theorem trimmed_concat (cs : List Char) (hc : Text.isBlank c = false) : Trimmed (cs ++ [c]) := by
  intro d hd
  rw [List.getLast?_concat] at hd
  cases hd
  exact hc

theorem trimmed_of_forall (hp : Text.blanks.any p = false) (h : ∀ c ∈ cs, p c = true) :
    Trimmed cs := by
  intro c hc
  apply Bool.eq_false_iff.mpr
  intro hblank
  have hchar := h c (List.mem_of_getLast? hc)
  rw [not_of_isBlank hp hblank] at hchar
  cases hchar

theorem Trimmed.rdropWhile_eq (h : Trimmed cs) : cs.rdropWhile Text.isBlank = cs := by
  rw [List.rdropWhile_eq_self_iff]
  intro hne hblank
  rw [h _ (List.getLast?_eq_some_getLast hne)] at hblank
  cases hblank

theorem rdropWhile_append_of_isBlank (hw : ∀ c ∈ w, Text.isBlank c = true) :
    (cs ++ w).rdropWhile Text.isBlank = cs.rdropWhile Text.isBlank := by
  rw [List.rdropWhile, List.reverse_append,
    List.dropWhile_append_of_pos fun c hc => hw c (List.mem_reverse.mp hc), List.rdropWhile]

theorem trimmed_text (ht : t.WellFormed) : Trimmed t.text.toList := by
  have hname : Text.blanks.any isNameChar = false := by decide +kernel
  cases t with
  | prefixed pfx localName =>
    have htext : (Token.prefixed pfx localName).text.toList =
        (pfx.toList ++ [':']) ++ localName.toList := by simp [Token.text]
    rw [htext]
    exact (trimmed_of_forall hname ht.2.chars).append_left ht.2.nonempty
  | name word => exact trimmed_of_forall hname ht.1.chars
  | uri reference =>
    have htext : (Token.uri reference).text.toList = ('<' :: reference.toList) ++ ['>'] := by
      simp [Token.text]
    rw [htext]
    exact trimmed_concat _ rfl
  | quoted body =>
    have htext : (Token.quoted body).text.toList = ('"' :: body.toList) ++ ['"'] := by
      simp [Token.text]
    rw [htext]
    exact trimmed_concat _ rfl
  | number digits => exact trimmed_of_forall (by decide +kernel) (isNumeralChar_of_isNumeral ht)
  | language tag =>
    have htext : (Token.language tag).text.toList = ['@'] ++ tag.toList := by simp [Token.text]
    rw [htext]
    exact (trimmed_concat [] rfl).append
      (trimmed_of_forall (by decide +kernel) (isTagChar_of_isTag ht))
  | boolean value =>
    cases value <;> exact trimmed_of_forall hname (Token.isWord_of_mem_reserved (by decide)).chars
  | comparison relation =>
    intro c hc
    cases relation <;> cases hc <;> rfl
  | mark m =>
    intro c hc
    cases m <;> cases hc <;> rfl

/-- A text without a gap behind its last token ends as that token does. -/
theorem trimmed_spread (hts : ∀ t ∈ ts, t.WellFormed) (hlast : gap ts.length = []) :
    Trimmed (spread gap ts) := by
  induction ts generalizing gap with
  | nil =>
    have hnil : spread gap [] = [] := hlast
    rw [hnil]
    nofun
  | cons t ts ih =>
    obtain ⟨ht, hlater⟩ := List.forall_mem_cons.mp hts
    obtain ⟨c, cs, htext, _⟩ := exists_cons_of_wellFormed ht
    have hne : t.text.toList ++ spread (fun i => gap (i + 1)) ts ≠ [] := by simp [htext]
    exact ((trimmed_text ht).append (ih hlater hlast)).append_left hne

/-- In the last gap, behind `n` tokens, `w` is added, and all the others stay. -/
structure Extends (gap gap' : Nat → List Char) (n : Nat) (w : List Char) : Prop where
  same : ∀ i < n, gap' i = gap i
  last : gap' n = gap n ++ w

theorem Extends.later (h : Extends gap gap' n w) (hk : k ≤ n) :
    Extends (fun i => gap (i + k)) (fun i => gap' (i + k)) (n - k) w := by
  constructor
  · intro i hi
    exact h.same (i + k) (by omega)
  · rw [Nat.sub_add_cancel hk]
    exact h.last

theorem Extends.spread_eq (h : Extends gap gap' ts.length w) :
    spread gap' ts = spread gap ts ++ w := by
  induction ts generalizing gap gap' with
  | nil => exact h.last
  | cons t ts ih =>
    have hlater : Extends (fun i => gap (i + 1)) (fun i => gap' (i + 1)) ts.length w :=
      h.later (Nat.succ_pos _)
    rw [spread, spread, ih hlater, h.same 0 (Nat.succ_pos _), List.append_assoc,
      List.append_assoc]

theorem Extends.behind_eq (h : Extends gap gap' ts.length w) (hi : i < ts.length) :
    behind gap' ts i = behind gap ts i ++ w := by
  apply Extends.spread_eq
  rw [List.length_drop]
  exact h.later hi

theorem Extends.tokenizes_iff (h : Extends gap gap' ts.length w) (hgap : Blank gap)
    (hgap' : Blank gap') (hw : ∀ c ∈ w, Text.isBlank c = true) :
    Tokenizes (spread gap' ts) ts ↔ Tokenizes (spread gap ts) ts := by
  -- of all tokens only a comparison looks further than to what comes next, and no blank closes a
  -- reference
  have hopens : ∀ i, ts[i]? = some (.comparison .lt) →
      (OpensReference (behind gap' ts i) ↔ OpensReference (behind gap ts i)) := by
    intro i hi
    have hlt : i < ts.length := (List.getElem?_eq_some_iff.mp hi).1
    have hnone : ¬ OpensReference w := not_opensReference_of_isBlank hw
    rw [h.behind_eq hlt, opensReference_append, or_iff_left fun hboth => hnone hboth.2]
  constructor
  · intro htokens
    apply tokenizes_respaced hgap' hgap (fun i _ hi => by rw [h.same i hi]) htokens
    intro i hi
    rw [← hopens i hi]
    exact not_opensReference_of_tokenizes hgap' htokens i hi
  · intro htokens
    apply tokenizes_respaced hgap hgap' (fun i _ hi => by rw [h.same i hi]) htokens
    intro i hi
    rw [hopens i hi]
    exact not_opensReference_of_tokenizes hgap htokens i hi

theorem Blank.update (h : Blank gap) (hw : ∀ c ∈ w, Text.isBlank c = true) :
    Blank (Function.update gap n w) := by
  intro i c hc
  by_cases hi : i = n
  · rw [hi, Function.update_self] at hc
    exact hw c hc
  · rw [Function.update_of_ne hi] at hc
    exact h i c hc

theorem Lexer.Tokenizes.append_blanks (h : Tokenizes cs ts)
    (hw : ∀ c ∈ w, Text.isBlank c = true) : Tokenizes (cs ++ w) ts := by
  obtain ⟨gap, hgap, rfl⟩ := exists_spread h
  have hextends : Extends gap (Function.update gap ts.length (gap ts.length ++ w)) ts.length w :=
    ⟨fun i hi => Function.update_of_ne hi.ne _ _, Function.update_self _ _ _⟩
  have hblank := hgap.update (n := ts.length) (List.forall_mem_append.mpr ⟨hgap ts.length, hw⟩)
  rw [← hextends.spread_eq, hextends.tokenizes_iff hgap hblank hw]
  exact h

theorem Lexer.Tokenizes.drop_blanks (h : Tokenizes cs ts) :
    Tokenizes (cs.rdropWhile Text.isBlank) ts := by
  obtain ⟨gap, hgap, rfl⟩ := exists_spread h
  have hextends : Extends (Function.update gap ts.length []) gap ts.length (gap ts.length) :=
    ⟨fun i hi => (Function.update_of_ne hi.ne _ _).symm, by rw [Function.update_self]; rfl⟩
  have htrimmed : Trimmed (spread (Function.update gap ts.length []) ts) :=
    trimmed_spread h.wellFormed (Function.update_self _ _ _)
  rw [hextends.spread_eq, rdropWhile_append_of_isBlank (hgap _), htrimmed.rdropWhile_eq]
  exact (hextends.tokenizes_iff (hgap.update nofun) hgap (hgap _)).mp h

/-- Blanks behind a text do not change its tokens. -/
theorem tokenizes_append_blanks (hw : ∀ c ∈ w, Text.isBlank c = true) :
    Tokenizes (cs ++ w) ts ↔ Tokenizes cs ts := by
  constructor
  · intro h
    have hfront := h.drop_blanks
    rw [rdropWhile_append_of_isBlank hw] at hfront
    have hall : ∀ c ∈ cs.rtakeWhile Text.isBlank, Text.isBlank c = true :=
      fun _ => List.mem_rtakeWhile_imp
    have hwhole := hfront.append_blanks hall
    rwa [List.rdropWhile_append_rtakeWhile] at hwhole
  · exact fun h => h.append_blanks hw

end ResourceQuery
