import Mathlib.Data.Fintype.EquivFin
import ResourceQuery.Proofs.Selection.Extent
import ResourceQuery.Proofs.Selection.MergeLevels

/-!
# Canonical selections

A level is settled when each listed choice shows at least what the wildcard shows and is not
the wildcard's own choice. A selection whose levels are all in order and settled is canonical:
nothing is listed that could be left out, so it is determined by what it shows along paths. The
URIs that no level lists carry the argument for the wildcards, and there is always one more.
-/

namespace ResourceQuery.Selection

set_option autoImplicit false

variable {s t : Selection} {c : Option Choice} {u : String}

/-- What is listed shows no less than the wildcard, and shows something else. -/
structure Settled (s : Selection) : Prop where
  absorbs : ∀ e ∈ s.entries, extent s.wildcard ≤ extent (some e.2)
  distinct : ∀ e ∈ s.entries, some e.2 ≠ s.wildcard

def Nests (s t : Selection) : Prop :=
  (∃ e ∈ s.entries, e.2 = .nested t) ∨ s.wildcard = some (.nested t)

inductive Canonical : Selection → Prop where
  | level {s : Selection} (ascending : Ascending s.entries) (settled : s.Settled)
    (inner : ∀ t, s.Nests t → Canonical t) : Canonical s

def CanonicalChoice (c : Choice) : Prop := ∀ s, c = .nested s → s.Canonical

/-- A level whose choices are canonical, settled or still to be settled. -/
structure Orderly (s : Selection) : Prop where
  ascending : Ascending s.entries
  choices : s.Every CanonicalChoice

theorem canonicalChoice_plain : CanonicalChoice .plain := nofun

theorem canonicalChoice_nested (h : s.Canonical) : CanonicalChoice (.nested s) := by
  intro t ht
  cases ht
  exact h

theorem every_canonicalChoice_iff : s.Every CanonicalChoice ↔ ∀ t, s.Nests t → t.Canonical := by
  constructor
  · rintro h t (⟨e, he, ht⟩ | ht)
    · exact h.entries e he t ht
    · exact h.wildcard _ ht t rfl
  · intro h
    constructor
    · intro e he t ht
      exact h t (Or.inl ⟨e, he, ht⟩)
    · rintro c hc t rfl
      exact h t (Or.inr hc)

theorem canonical_iff : s.Canonical ↔ s.Orderly ∧ s.Settled := by
  constructor
  · rintro ⟨ascending, settled, inner⟩
    exact ⟨⟨ascending, every_canonicalChoice_iff.mpr inner⟩, settled⟩
  · rintro ⟨orderly, settled⟩
    exact .level orderly.ascending settled (every_canonicalChoice_iff.mp orderly.choices)

theorem Canonical.orderly (h : s.Canonical) : s.Orderly := (canonical_iff.mp h).1

theorem Canonical.settled (h : s.Canonical) : s.Settled := (canonical_iff.mp h).2

theorem Canonical.nests (h : s.Canonical) (ht : s.Nests t) : t.Canonical :=
  every_canonicalChoice_iff.mp h.orderly.choices t ht

theorem canonical_empty : empty.Canonical := by
  refine .level Ascending.nil ⟨nofun, nofun⟩ ?_
  rintro t (⟨e, he, _⟩ | ht)
  · cases he
  · cases ht

theorem select_of_get?_none (h : s.get? u = none) : s.select u = s.wildcard := by
  rw [select, h, Option.none_or]

theorem select_of_get?_some {a : Choice} (h : s.get? u = some a) : s.select u = some a := by
  rw [select, h, Option.some_or]

theorem nests_of_select (h : s.select u = some (.nested t)) : s.Nests t := by
  cases hg : s.get? u with
  | none =>
    rw [select_of_get?_none hg] at h
    exact Or.inr h
  | some a =>
    rw [select_of_get?_some hg, Option.some.injEq] at h
    exact Or.inl ⟨(u, a), mem_of_lookup hg, h⟩

theorem Settled.get?_ne_wildcard (h : s.Settled) {a : Choice} (hg : s.get? u = some a) :
    some a ≠ s.wildcard := h.distinct (u, a) (mem_of_lookup hg)

/-- A settled level lists exactly the URIs whose answer is not the wildcard. -/
theorem Settled.get?_eq (h : s.Settled) :
    s.get? u = if s.select u = s.wildcard then none else s.select u := by
  cases hg : s.get? u with
  | none => rw [select_of_get?_none hg, if_pos rfl]
  | some a => rw [select_of_get?_some hg, if_neg (h.get?_ne_wildcard hg)]

theorem Settled.extent_select (h : s.Settled) :
    extent (s.select u) = extent (s.get? u) ⊔ extent s.wildcard := by
  cases hg : s.get? u with
  | none => rw [select_of_get?_none hg, extent_none, bot_sup_eq]
  | some a =>
    rw [select_of_get?_some hg]
    exact (sup_eq_left.mpr (h.absorbs (u, a) (mem_of_lookup hg))).symm

theorem exists_unlisted (s t : Selection) : ∃ u, s.get? u = none ∧ t.get? u = none := by
  obtain ⟨u, hu⟩ := Infinite.exists_notMem_finset
    ((s.entries ++ t.entries).map Prod.fst).toFinset
  have hfresh : ∀ e ∈ s.entries ++ t.entries, u ≠ e.1 := by
    rintro e he rfl
    exact hu (List.mem_toFinset.mpr (List.mem_map_of_mem he))
  refine ⟨u, ?_, ?_⟩
  · apply List.lookup_eq_none_iff.mpr
    intro e he
    exact bne_iff_ne.mpr (hfresh e (List.mem_append_left _ he))
  · apply List.lookup_eq_none_iff.mpr
    intro e he
    exact bne_iff_ne.mpr (hfresh e (List.mem_append_right _ he))

theorem eq_of_select_eq (hs : s.Canonical) (ht : t.Canonical)
    (h : ∀ u, s.select u = t.select u) : s = t := by
  have hw : s.wildcard = t.wildcard := by
    obtain ⟨u, hsu, htu⟩ := exists_unlisted s t
    rw [← select_of_get?_none hsu, h u, select_of_get?_none htu]
  have hes : s.entries = t.entries := by
    apply hs.orderly.ascending.eq_of_lookup ht.orderly.ascending
    intro u
    have hsu := hs.settled.get?_eq (u := u)
    rw [h u, hw, ← ht.settled.get?_eq] at hsu
    exact hsu
  obtain ⟨es, w⟩ := s
  obtain ⟨fs, v⟩ := t
  cases hw
  cases hes
  rfl

/-- A canonical selection is what it shows along paths. -/
theorem Canonical.eq_of_extent (hs : s.Canonical) (ht : t.Canonical)
    (h : ∀ u, extent (s.select u) = extent (t.select u)) : s = t := by
  induction hs generalizing t with
  | @level s ascending settled inner ih =>
    apply eq_of_select_eq (.level ascending settled inner) ht
    intro u
    apply eq_of_extent_eq (h u)
    intro a b ha hb hab
    exact ih a (nests_of_select ha) (ht.nests (nests_of_select hb)) hab

end ResourceQuery.Selection
