import ResourceQuery.Proofs.Lexer.Followers
import ResourceQuery.Proofs.Lexer.Spelling

/-!
# Other blanks between the same tokens

A text is its tokens with blanks around them. Which blanks these are does not matter as long as
there are some where there were some, with one exception. A URI reference may hold every
character above the space, and so it may hold the blanks above the space, such as a no-break
space. If nothing but such blanks and other characters of URI references stands between `<` and
a later `>`, what was a comparison becomes the beginning of a URI reference.
-/

namespace ResourceQuery

set_option autoImplicit false

open Reading Lexer

variable {c : Char} {cs w rest : List Char} {t : Token} {ts : List Token}
  {gap gap' : Nat → List Char}

/-- Characters of a URI reference, and then the bracket that closes it. -/
def OpensReference (cs : List Char) : Prop :=
  ∃ body after, cs = body ++ '>' :: after ∧ ∀ c ∈ body, isUriChar c = true

theorem uriBody?_eq_none_iff : uriBody? cs = none ↔ ¬ OpensReference cs := by
  rw [Option.eq_none_iff_forall_ne_some]
  constructor
  · rintro hnone ⟨body, after, hcs, hbody⟩
    exact hnone body (uriBody?_eq_some_iff.mpr ⟨after, hcs, hbody⟩)
  · intro hopens body hbody
    obtain ⟨after, hcs, hchars⟩ := uriBody?_eq_some_iff.mp hbody
    exact hopens ⟨body, after, hcs, hchars⟩

theorem opensReference_append : OpensReference (w ++ rest) ↔
    OpensReference w ∨ (∀ c ∈ w, isUriChar c = true) ∧ OpensReference rest := by
  constructor
  · rintro ⟨body, after, heq, hbody⟩
    -- the bracket stands behind `w` or in it
    rcases List.append_eq_append_iff.mp heq with ⟨more, rfl, hmore⟩ | ⟨more, rfl, hmore⟩
    · obtain ⟨hw, hmore'⟩ := List.forall_mem_append.mp hbody
      exact Or.inr ⟨hw, more, after, hmore, hmore'⟩
    · cases more with
      | nil => exact Or.inr ⟨by simpa using hbody, [], after, by simpa using hmore.symm, nofun⟩
      | cons d more =>
        obtain ⟨rfl, rfl⟩ := List.cons.inj hmore
        exact Or.inl ⟨body, more, rfl, hbody⟩
  · rintro (⟨body, after, rfl, hbody⟩ | ⟨hw, body, after, rfl, hbody⟩)
    · exact ⟨body, after ++ rest, by simp, hbody⟩
    · exact ⟨w ++ body, after, by simp, List.forall_mem_append.mpr ⟨hw, hbody⟩⟩

theorem not_opensReference_of_isBlank (hw : ∀ c ∈ w, Text.isBlank c = true) :
    ¬ OpensReference w := by
  rintro ⟨body, after, rfl, _⟩
  have hblank := hw '>' (by simp)
  exact absurd hblank (by decide)

theorem Lexer.Tokenizes.of_dropWhile {cs' : List Char} (h : Tokenizes cs ts)
    (heq : cs.dropWhile Text.isBlank = cs'.dropWhile Text.isBlank) : Tokenizes cs' ts := by
  cases h with
  | done hskip => exact .done (heq ▸ hskip)
  | token hskip hread h => exact .token (heq ▸ hskip) hread h

theorem tokenizes_blanks_append (hw : ∀ c ∈ w, Text.isBlank c = true) :
    Tokenizes (w ++ cs) ts ↔ Tokenizes cs ts := by
  have hdrop : (w ++ cs).dropWhile Text.isBlank = cs.dropWhile Text.isBlank :=
    List.dropWhile_append_of_pos hw
  exact ⟨fun h => h.of_dropWhile hdrop, fun h => h.of_dropWhile hdrop.symm⟩

theorem exists_cons_of_wellFormed (ht : t.WellFormed) :
    ∃ c cs, t.text.toList = c :: cs ∧ Text.isBlank c = false := by
  have hends : EndsBefore t [' '] := endsBefore_space
  obtain ⟨c, cs, htext, hc, _⟩ := reads_of_endsBefore ht hends
  cases hchars : t.text.toList with
  | nil =>
    rw [hchars] at htext
    cases htext
    exact absurd hc (by decide)
  | cons d ds =>
    rw [hchars] at htext
    obtain ⟨rfl, _⟩ := List.cons.inj htext
    exact ⟨d, ds, rfl, hc⟩

theorem tokenizes_text_append (ht : t.WellFormed) :
    Tokenizes (t.text.toList ++ rest) (t :: ts) ↔ Reads t rest ∧ Tokenizes rest ts := by
  constructor
  · intro h
    obtain ⟨c, cs, htext, hc⟩ := exists_cons_of_wellFormed ht
    have hcons : t.text.toList ++ rest = c :: (cs ++ rest) := by
      rw [htext, List.cons_append]
    have hskip : (t.text.toList ++ rest).dropWhile Text.isBlank = c :: (cs ++ rest) := by
      rw [hcons, List.dropWhile_cons, if_neg (Bool.eq_false_iff.mp hc)]
    cases h with
    | token hskip' hread h =>
      rw [hskip] at hskip'
      cases hskip'
      obtain ⟨_, hlength⟩ := spelled_of_ofChars hread
      rw [← hlength] at hread h
      rw [← hcons, List.drop_left] at h
      exact ⟨⟨c, _, hcons, hc, hread⟩, h⟩
  · rintro ⟨hreads, h⟩
    exact h.cons hreads

theorem Lexer.Tokenizes.head?_ne_point (h : Tokenizes cs ts) : cs.head? ≠ some '.' := by
  intro hhead
  obtain ⟨rest, rfl⟩ := List.head?_eq_some_iff.mp hhead
  have hskip : ('.' :: rest).dropWhile Text.isBlank = '.' :: rest := rfl
  have hread : ofChars '.' rest = .fault (.unexpected '.') 1 0 := rfl
  exact Tokenizes.not_of_fault hskip hread h

/-- The text of some tokens with a gap before each of them and after the last. -/
def spread (gap : Nat → List Char) : List Token → List Char
  | [] => gap 0
  | t :: ts => gap 0 ++ (t.text.toList ++ spread (fun i => gap (i + 1)) ts)

/-- The text behind one of the tokens. -/
def behind (gap : Nat → List Char) (ts : List Token) (i : Nat) : List Char :=
  spread (fun k => gap (k + (i + 1))) (ts.drop (i + 1))

def Blank (gap : Nat → List Char) : Prop := ∀ i, ∀ c ∈ gap i, Text.isBlank c = true

theorem Blank.later (h : Blank gap) (k : Nat) : Blank fun i => gap (i + k) := fun i => h (i + k)

/-- The text is the tokens with the gaps around them, which are blank. -/
structure Spacing (text : String) (ts : List Token) (gap : Nat → List Char) : Prop where
  blank : Blank gap
  spelled : text.toList = spread gap ts

/-- Between the tokens there are blanks in the same places. -/
def SameBreaks (ts : List Token) (gap gap' : Nat → List Char) : Prop :=
  ∀ i, 0 < i → i < ts.length → (gap i = [] ↔ gap' i = [])

/-- Blanks in one gap only. -/
def gapAt (k : Nat) (w : List Char) : Nat → List Char := fun i => if i = k then w else []

theorem blank_gapAt {k : Nat} (hw : w.all Text.isBlank = true) : Blank (gapAt k w) := by
  intro i c hc
  unfold gapAt at hc
  split at hc
  · exact List.all_eq_true.mp hw c hc
  · cases hc

theorem gapAt_ne_nil_iff {i k : Nat} (hw : w ≠ []) : gapAt k w i ≠ [] ↔ i = k := by
  unfold gapAt
  split
  · exact iff_of_true hw ‹_›
  · exact iff_of_false (fun h => h rfl) ‹_›

theorem sameBreaks_gapAt {k : Nat} {w' : List Char} (hw : w ≠ []) (hw' : w' ≠ []) :
    SameBreaks ts (gapAt k w) (gapAt k w') :=
  fun _ _ _ => not_iff_not.mp ((gapAt_ne_nil_iff hw).trans (gapAt_ne_nil_iff hw').symm)

theorem tokenizes_spread_cons (hgap : Blank gap) (ht : t.WellFormed) :
    Tokenizes (spread gap (t :: ts)) (t :: ts) ↔
      Reads t (spread (fun i => gap (i + 1)) ts) ∧
        Tokenizes (spread (fun i => gap (i + 1)) ts) ts := by
  rw [spread, tokenizes_blanks_append (hgap 0), tokenizes_text_append ht]

theorem exists_spread (h : Tokenizes cs ts) : ∃ gap, Blank gap ∧ cs = spread gap ts := by
  induction h with
  | @done cs hskip =>
    refine ⟨fun _ => cs, fun _ => List.dropWhile_eq_nil_iff.mp hskip, rfl⟩
  | @token cs rest c t n ts hskip hread _ ih =>
    obtain ⟨gap, hgap, hrest⟩ := ih
    refine ⟨fun i => match i with | 0 => cs.takeWhile Text.isBlank | i + 1 => gap i, ?_, ?_⟩
    · intro i c hc
      cases i with
      | zero => exact List.mem_takeWhile_imp hc
      | succ i => exact hgap i c hc
    · rw [spread, ← hrest, ← append_of_ofChars hread, ← hskip,
        List.takeWhile_append_dropWhile]

theorem loosens_spread (hgap' : Blank gap') (hts : ∀ t ∈ ts, t.WellFormed)
    (hsame : ts ≠ [] → (gap 0 = [] ↔ gap' 0 = [])) : Loosens (spread gap ts) (spread gap' ts) := by
  intro c hc
  cases ts with
  | nil => exact Or.inl (hgap' 0 c (List.mem_of_mem_head? hc))
  | cons t ts =>
    by_cases hnone : gap' 0 = []
    · obtain ⟨d, ds, htext, _⟩ := exists_cons_of_wellFormed (hts t List.mem_cons_self)
      rw [spread, hnone, List.nil_append, htext] at hc
      rw [spread, (hsame (List.cons_ne_nil _ _)).mpr hnone, List.nil_append, htext]
      exact Or.inr hc
    · rw [spread, List.head?_append_of_ne_nil _ hnone] at hc
      exact Or.inl (hgap' 0 c (List.mem_of_mem_head? hc))

theorem tokenizes_respaced (hgap : Blank gap) (hgap' : Blank gap') (hsame : SameBreaks ts gap gap')
    (h : Tokenizes (spread gap ts) ts)
    (hopen : ∀ i, ts[i]? = some (.comparison .lt) → ¬ OpensReference (behind gap' ts i)) :
    Tokenizes (spread gap' ts) ts := by
  induction ts generalizing gap gap' with
  | nil => exact .done (List.dropWhile_eq_nil_iff.mpr (hgap' 0))
  | cons t ts ih =>
    obtain ⟨ht, hts⟩ := List.forall_mem_cons.mp h.wellFormed
    obtain ⟨hreads, hlater⟩ := (tokenizes_spread_cons hgap ht).mp h
    refine (tokenizes_spread_cons hgap' ht).mpr ⟨?_, ?_⟩
    · have hends := endsBefore_of_reads ht hreads hlater.head?_ne_point
      have hnext : ts ≠ [] → (gap 1 = [] ↔ gap' 1 = []) :=
        fun hne => hsame 1 Nat.one_pos (Nat.succ_lt_succ (List.length_pos_iff.mpr hne))
      have hloose : Loosens (spread (fun i => gap (i + 1)) ts) (spread (fun i => gap' (i + 1)) ts) :=
        loosens_spread (hgap'.later 1) hts hnext
      apply reads_of_endsBefore ht (hends.loosens hloose _)
      rintro rfl
      exact uriBody?_eq_none_iff.mpr (hopen 0 rfl)
    · refine ih (hgap.later 1) (hgap'.later 1) ?_ hlater fun i hi => hopen (i + 1) hi
      intro i hpos hi
      exact hsame (i + 1) (Nat.succ_pos i) (Nat.succ_lt_succ hi)

theorem not_opensReference_of_tokenizes (hgap : Blank gap) (h : Tokenizes (spread gap ts) ts) :
    ∀ i, ts[i]? = some (.comparison .lt) → ¬ OpensReference (behind gap ts i) := by
  induction ts generalizing gap with
  | nil => nofun
  | cons t ts ih =>
    obtain ⟨ht, _⟩ := List.forall_mem_cons.mp h.wellFormed
    obtain ⟨hreads, hlater⟩ := (tokenizes_spread_cons hgap ht).mp h
    intro i hi
    cases i with
    | zero =>
      cases hi
      exact uriBody?_eq_none_iff.mp (endsBefore_of_reads_lt hreads).2.2
    | succ i => exact ih (hgap.later 1) hlater i hi

theorem opensReference_of_respaced (hgap' : Blank gap')
    (hsame : ∀ i, i < ts.length → (gap i = [] ↔ gap' i = []))
    (hplain : ∀ i, i < ts.length → gap' i ≠ [] → ∃ c ∈ gap' i, c ≤ ' ')
    (h : OpensReference (spread gap' ts)) : OpensReference (spread gap ts) := by
  induction ts generalizing gap gap' with
  | nil => exact absurd h (not_opensReference_of_isBlank (hgap' 0))
  | cons t ts ih =>
    rw [spread, opensReference_append, opensReference_append] at h
    rcases h with h | ⟨hchars, h⟩
    · exact absurd h (not_opensReference_of_isBlank (hgap' 0))
    · -- a reference cannot pass over an ASCII blank, so there is no gap here in either text
      have hnone : gap' 0 = [] := by
        by_contra hne
        obtain ⟨c, hc, hle⟩ := hplain 0 (Nat.succ_pos _) hne
        have huri := hchars c hc
        simp only [isUriChar, Bool.and_eq_true, decide_eq_true_eq] at huri
        exact absurd huri.1 (Char.not_lt.mpr hle)
      have hnone' : gap 0 = [] := (hsame 0 (Nat.succ_pos _)).mpr hnone
      rw [spread, hnone', List.nil_append, opensReference_append]
      rcases h with h | ⟨htext, h⟩
      · exact Or.inl h
      · refine Or.inr ⟨htext, ih (hgap'.later 1) ?_ ?_ h⟩
        · exact fun i hi => hsame (i + 1) (Nat.succ_lt_succ hi)
        · exact fun i hi => hplain (i + 1) (Nat.succ_lt_succ hi)

end ResourceQuery
