import ResourceQuery.Proofs.Clause.Completion
import ResourceQuery.Proofs.Lexer.Respacing

/-!
# Other blanks, the same clause

The tree of a clause depends on its tokens alone, so a text that has other blanks between the same
tokens says the same, unless a URI reference opens in it. With an ASCII blank in every gap none
does. A gap of other blanks only may become part of one, although these are skipped everywhere
else.
-/

namespace ResourceQuery

set_option autoImplicit false

open Lexer

/-- Which tree a text has depends on its tokens alone. -/
theorem Clause.exists_accepts (names : PrefixMap) (clause : Clause) :
    ∃ accepts : List Token → Option Tree, ∀ text tree,
      clause.parse names text = .ok tree ↔
        ∃ ts, tokenize text = .ok ts ∧ accepts ts = some tree := by
  obtain ⟨σ, α, g, f, hg, hparse, _⟩ := clause.exists_grammar names
  obtain ⟨forget, hforget⟩ := hg.forgets
  refine ⟨fun ts => (g.accepts? g.start ts).map f, ?_⟩
  intro text tree
  rw [hparse, map_eq_ok_iff]
  simp only [hforget.parse_eq_ok_iff, Option.map_eq_some_iff]
  constructor
  · rintro ⟨a, ⟨ts, hts, ha⟩, rfl⟩
    exact ⟨ts, hts, a, ha, rfl⟩
  · rintro ⟨ts, hts, a, ha, rfl⟩
    exact ⟨a, ⟨ts, hts, ha⟩, rfl⟩

theorem Clause.parse_congr {names : PrefixMap} {clause : Clause} {text text' : String} {tree : Tree}
    (h : tokenize text = tokenize text') :
    clause.parse names text = .ok tree ↔ clause.parse names text' = .ok tree := by
  obtain ⟨accepts, haccepts⟩ := clause.exists_accepts names
  rw [haccepts, haccepts, h]

/-- A text that has other blanks in the places of the blanks has the same tokens, if in it no URI
reference opens behind a comparison. None does if each gap has an ASCII blank. -/
theorem tokenize_respaced {text : String} {ts : List Token} (h : tokenize text = .ok ts) :
    (∃ gap, Spacing text ts gap) ∧
    ∀ gap gap' text', Spacing text ts gap → Spacing text' ts gap' → SameBreaks ts gap gap' →
      (tokenize text' = .ok ts ↔
        ∀ i, ts[i]? = some (.comparison .lt) → ¬ OpensReference (behind gap' ts i)) ∧
      ((∀ i, 0 < i → i < ts.length → gap' i ≠ [] → ∃ c ∈ gap' i, c ≤ ' ') →
        tokenize text' = .ok ts) ∧
      (tokenize text' = .ok ts → ∀ names (clause : Clause) tree,
        clause.parse names text = .ok tree ↔ clause.parse names text' = .ok tree) := by
  have htokens : Tokenizes text.toList ts := tokenize_eq_ok_iff.mp h
  obtain ⟨gap₀, hblank₀, hspelled₀⟩ := exists_spread htokens
  refine ⟨⟨gap₀, hblank₀, hspelled₀⟩, ?_⟩
  intro gap gap' text' hgap hgap' hsame
  rw [hgap.spelled] at htokens
  have hiff : tokenize text' = .ok ts ↔
      ∀ i, ts[i]? = some (.comparison .lt) → ¬ OpensReference (behind gap' ts i) := by
    rw [tokenize_eq_ok_iff, hgap'.spelled]
    exact ⟨not_opensReference_of_tokenizes hgap'.blank,
      tokenizes_respaced hgap.blank hgap'.blank hsame htokens⟩
  refine ⟨hiff, ?_, fun h' names clause tree => Clause.parse_congr (h.trans h'.symm)⟩
  intro hplain
  rw [hiff]
  intro i hi hopens
  refine not_opensReference_of_tokenizes hgap.blank htokens i hi ?_
  refine opensReference_of_respaced (hgap'.blank.later (i + 1)) ?_ ?_ hopens
  · intro k hk
    rw [List.length_drop] at hk
    exact hsame (k + (i + 1)) (by omega) (by omega)
  · intro k hk
    rw [List.length_drop] at hk
    exact hplain (k + (i + 1)) (by omega) (by omega)

theorem tokenize_respaced_newline :
    tokenize "<\n b>" = .ok [.comparison .lt, .name "b", .comparison .gt] := by
  have h : tokenize "< b>" = .ok [.comparison .lt, .name "b", .comparison .gt] := by
    decide +kernel
  have hgap : Spacing "< b>" [.comparison .lt, .name "b", .comparison .gt] (gapAt 1 [' ']) :=
    ⟨blank_gapAt rfl, rfl⟩
  have hgap' : Spacing "<\n b>" [.comparison .lt, .name "b", .comparison .gt]
      (gapAt 1 ['\n', ' ']) := ⟨blank_gapAt rfl, rfl⟩
  have hgaps := (tokenize_respaced h).2 _ _ _ hgap hgap' (sameBreaks_gapAt nofun nofun)
  apply hgaps.2.1
  intro i _ _ hne
  obtain rfl := (gapAt_ne_nil_iff (List.cons_ne_nil _ _)).mp hne
  exact ⟨' ', by decide, by decide⟩

/-- A no-break space is skipped between tokens, and yet it is read as part of a URI reference. -/
theorem not_forall_tokenize_respaced :
    ¬ ∀ text text' ts gap gap', tokenize text = .ok ts → Spacing text ts gap →
      Spacing text' ts gap' → SameBreaks ts gap gap' → tokenize text' = .ok ts := by
  intro hall
  have h : tokenize "< b>" = .ok [.comparison .lt, .name "b", .comparison .gt] := by
    decide +kernel
  have h' : tokenize "<\u00a0b>" = .ok [.uri "\u00a0b"] := by decide +kernel
  have hgap : Spacing "< b>" [.comparison .lt, .name "b", .comparison .gt] (gapAt 1 [' ']) :=
    ⟨blank_gapAt rfl, rfl⟩
  have hgap' : Spacing "<\u00a0b>" [.comparison .lt, .name "b", .comparison .gt]
      (gapAt 1 ['\u00a0']) := ⟨blank_gapAt rfl, rfl⟩
  have hkept := hall _ _ _ _ _ h hgap hgap' (sameBreaks_gapAt nofun nofun)
  rw [h'] at hkept
  cases hkept

end ResourceQuery
