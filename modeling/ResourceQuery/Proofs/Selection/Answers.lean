import ResourceQuery.Proofs.Selection.Asking

/-!
# The answers of a property list

A naive reader answers for a property by looking at the listed properties that cover it: no
answer if there are none, a plain one if none of them has braces, and else a nested one with
what all their braces ask for, read as one list. `ofProperties` gives these answers, though it
joins the braces one by one, drops entries and skips names: both show the same along every
path, and both are canonical.
-/

namespace ResourceQuery

set_option autoImplicit false

namespace Property

variable {p : Property} {ps : List Property} {u : String}

/-- What stands in the braces of some listed properties, read as one list. -/
def inner (ps : List Property) : List Property := (ps.filterMap children?).flatten

/-- The answer that a naive reader gives for a property that just these listed ones cover. -/
def answer (ps : List Property) : Option Choice :=
  if ps.isEmpty then none
  else if ps.all fun p => p.children?.isNone then some .plain
  else some (.nested (.ofProperties (inner ps)))

theorem choice_of_none (h : p.children? = none) : p.choice = .plain := by
  simp only [choice, h]

theorem choice_of_some {children : List Property} (h : p.children? = some children) :
    p.choice = .nested (.ofProperties children) := by
  simp only [choice, h]

theorem inner_cons : inner (p :: ps) = p.children?.getD [] ++ inner ps := by
  unfold inner
  cases h : p.children? <;> simp [h]

theorem empty_or_unbraced_or_braced (ps : List Property) :
    ps = [] ∨ (ps ≠ [] ∧ ∀ p ∈ ps, p.children? = none) ∨ ∃ p ∈ ps, p.children? ≠ none := by
  by_cases hbraced : ∃ p ∈ ps, p.children? ≠ none
  · exact Or.inr (Or.inr hbraced)
  · have hnone : ∀ p ∈ ps, p.children? = none := by
      intro p hp
      by_contra hsome
      exact hbraced ⟨p, hp, hsome⟩
    by_cases hnil : ps = []
    · exact Or.inl hnil
    · exact Or.inr (Or.inl ⟨hnil, hnone⟩)

theorem answer_nil : answer [] = none := rfl

theorem answer_of_unbraced (hne : ps ≠ []) (h : ∀ p ∈ ps, p.children? = none) :
    answer ps = some .plain := by
  have hall : ps.all fun p => p.children?.isNone := by
    apply List.all_eq_true.mpr
    intro p hp
    exact Option.isNone_iff_eq_none.mpr (h p hp)
  rw [answer, if_neg (mt List.isEmpty_iff.mp hne), if_pos hall]

theorem answer_of_braced (hp : p ∈ ps) (h : p.children? ≠ none) :
    answer ps = some (.nested (.ofProperties (inner ps))) := by
  have hall : ¬ ps.all fun p => p.children?.isNone := by
    intro hall
    exact h (Option.isNone_iff_eq_none.mp (List.all_eq_true.mp hall p hp))
  rw [answer, if_neg (mt List.isEmpty_iff.mp (List.ne_nil_of_mem hp)), if_neg hall]

theorem greatest_path {v : String} {path : List String} :
    greatest ps (v :: path) = greatest (covering (inner ps) v) path := by
  induction ps with
  | nil => rfl
  | cons p ps ih =>
    rw [inner_cons, covering_append, greatest_append]
    have hsplit : greatest (p :: ps) (v :: path) =
        Selection.extent (some p.choice) (v :: path) ⊔ greatest ps (v :: path) := rfl
    have hhead : Selection.extent (some p.choice) (v :: path) =
        greatest (covering (p.children?.getD []) v) path := by
      cases h : p.children? with
      | none =>
        rw [choice_of_none h]
        rfl
      | some children =>
        rw [choice_of_some h, Selection.extent_nested_cons,
          Selection.extent_select_ofProperties]
        rfl
    rw [hsplit, hhead, ih]
    rfl

theorem greatest_eq_extent_answer (ps : List Property) :
    greatest ps = Selection.extent (answer ps) := by
  rcases empty_or_unbraced_or_braced ps with rfl | ⟨hne, hnone⟩ | ⟨p, hp, hsome⟩
  · rw [answer_nil, Selection.extent_none]
    rfl
  · rw [answer_of_unbraced hne hnone]
    apply le_antisymm
    · apply greatest_le
      intro p hp
      rw [choice_of_none (hnone p hp)]
    · obtain ⟨p, hp⟩ := List.exists_mem_of_ne_nil ps hne
      rw [← choice_of_none (hnone p hp)]
      exact le_greatest hp
  · rw [answer_of_braced hp hsome]
    funext path
    cases path with
    | nil =>
      obtain ⟨children, hchildren⟩ := Option.ne_none_iff_exists'.mp hsome
      have hle := le_greatest hp []
      rw [choice_of_some hchildren] at hle
      exact le_antisymm (Extent.le_nested _) hle
    | cons v path =>
      rw [greatest_path, Selection.extent_nested_cons, Selection.extent_select_ofProperties]

theorem canonical_of_answer {s : Selection} (h : answer ps = some (.nested s)) :
    s.Canonical := by
  rcases empty_or_unbraced_or_braced ps with rfl | ⟨hne, hnone⟩ | ⟨p, hp, hsome⟩
  · cases h
  · rw [answer_of_unbraced hne hnone] at h
    cases h
  · rw [answer_of_braced hp hsome] at h
    cases h
    exact Selection.canonical_ofProperties _

end Property

namespace Selection

open Property

theorem select_ofProperties_eq_answer (ps : List Property) (u : String) :
    (ofProperties ps).select u = answer (covering ps u) := by
  have hextent : extent ((ofProperties ps).select u) = extent (answer (covering ps u)) := by
    rw [extent_select_ofProperties, greatest_eq_extent_answer]
  apply eq_of_extent_eq hextent
  intro s t hs ht hst
  have hcanonical : s.Canonical := (canonical_ofProperties ps).nests (nests_of_select hs)
  exact hcanonical.eq_of_extent (canonical_of_answer ht) hst

example : (ofProperties [.nestedWildcard [.named ⟨"qm#", "a", none⟩],
      .nested ⟨"qm#", "b", none⟩ [.named ⟨"qm#", "c", none⟩]]).select "qm#b" =
    some (.nested (.mk [("qm#a", .plain), ("qm#c", .plain)] none)) := by
  decide +kernel

/-- No answer where nothing covers the property, a plain one where nothing that covers it has
braces, and else what all the braces ask for, read as one list. -/
theorem select_ofProperties_iff (ps : List Property) (u : String) :
    ((ofProperties ps).select u = none ↔ covering ps u = []) ∧
    ((ofProperties ps).select u = some .plain ↔
      covering ps u ≠ [] ∧ ∀ p ∈ covering ps u, p.children? = none) ∧
    ∀ s, (ofProperties ps).select u = some (.nested s) ↔
      (∃ p ∈ covering ps u, p.children? ≠ none) ∧ s = ofProperties (inner (covering ps u)) := by
  rw [select_ofProperties_eq_answer]
  rcases empty_or_unbraced_or_braced (covering ps u) with hnil | ⟨hne, hnone⟩ | ⟨p, hp, hsome⟩
  · rw [hnil, answer_nil]
    simp
  · rw [answer_of_unbraced hne hnone]
    refine ⟨by simp [hne], by simpa using ⟨hne, hnone⟩, fun s => ?_⟩
    constructor
    · nofun
    · rintro ⟨⟨p, hp, hsome⟩, _⟩
      exact absurd (hnone p hp) hsome
  · rw [answer_of_braced hp hsome]
    refine ⟨by simp [List.ne_nil_of_mem hp], ?_, fun s => ?_⟩
    · constructor
      · nofun
      · exact fun h => absurd (h.2 p hp) hsome
    · simp only [Option.some.injEq, Choice.nested.injEq]
      exact ⟨fun h => ⟨⟨p, hp, hsome⟩, h.symm⟩, fun h => h.2.symm⟩

end Selection

end ResourceQuery
