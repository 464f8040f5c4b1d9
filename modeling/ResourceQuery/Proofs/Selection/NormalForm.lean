import Mathlib.Logic.Relation
import ResourceQuery.Proofs.Selection.Reachable

/-!
# The normal form of a level

Canonical levels are described by what they show along paths. The same can be said by their
entries alone: beside a plain wildcard no plain choice is listed, and beside one that nests every
listed choice nests more than the wildcard does, so merging what the wildcard nests into it
changes nothing. A selection is canonical just when each level in it is listed in order and is of
this form, and a level then lists exactly the properties that its wildcard does not answer for.
-/

namespace ResourceQuery.Selection

set_option autoImplicit false

variable {s t : Selection} {a : Choice} {u : String}

/-- What may be listed beside the wildcard. -/
structure Normal (s : Selection) : Prop where
  plain : s.wildcard = some .plain → ∀ e ∈ s.entries, e.2 ≠ .plain
  nested : ∀ common, s.wildcard = some (.nested common) → ∀ e ∈ s.entries,
    ∃ inner, e.2 = .nested inner ∧ inner ≠ common ∧ merge inner common = inner

/-- The levels of a selection are its own and those of all that it nests. -/
def HasLevel : Selection → Selection → Prop := Relation.ReflTransGen Nests

theorem extent_nested_le_iff :
    extent (some (.nested s)) ≤ extent (some a) ↔
      ∃ t, a = .nested t ∧ ∀ u, extent (s.select u) ≤ extent (t.select u) := by
  constructor
  · intro h
    cases a with
    | plain =>
      have hnil : Extent.nested ≤ Extent.plain := h []
      exact absurd hnil (by decide)
    | nested t => exact ⟨t, rfl, fun u path => h (u :: path)⟩
  · rintro ⟨t, rfl, h⟩ path
    cases path with
    | nil => exact le_rfl
    | cons u path => exact h u path

/-- What is shown already changes nothing when it is merged. -/
theorem Canonical.merge_eq_left_iff (hs : s.Canonical) (ht : t.Canonical) :
    Selection.merge s t = s ↔ ∀ u, extent (t.select u) ≤ extent (s.select u) := by
  constructor
  · intro h u
    rw [← sup_eq_left, ← extent_select_merge hs ht, h]
  · intro h
    apply (hs.merge ht).eq_of_extent hs
    intro u
    rw [extent_select_merge hs ht, sup_eq_left]
    exact h u

/-- A listed choice says at least as much as a wildcard that nests just if it nests too, and merging
what the wildcard nests into it changes nothing. -/
theorem wildcard_le_iff (hs : s.Every CanonicalChoice) {common : Selection}
    (hw : s.wildcard = some (.nested common)) {e : String × Choice} (he : e ∈ s.entries) :
    extent s.wildcard ≤ extent (some e.2) ↔
      ∃ inner, e.2 = .nested inner ∧ merge inner common = inner := by
  have hcommon : common.Canonical := hs.wildcard _ hw common rfl
  rw [hw, extent_nested_le_iff]
  constructor
  · rintro ⟨inner, hinner, hle⟩
    have hic : inner.Canonical := hs.entries e he inner hinner
    exact ⟨inner, hinner, (hic.merge_eq_left_iff hcommon).mpr hle⟩
  · rintro ⟨inner, hinner, hmerge⟩
    have hic : inner.Canonical := hs.entries e he inner hinner
    exact ⟨inner, hinner, (hic.merge_eq_left_iff hcommon).mp hmerge⟩

theorem Settled.normal (h : s.Settled) (hs : s.Every CanonicalChoice) : s.Normal := by
  constructor
  · intro hw e he heq
    exact h.distinct e he (by rw [heq, hw])
  · intro common hw e he
    obtain ⟨inner, hinner, hmerge⟩ := (wildcard_le_iff hs hw he).mp (h.absorbs e he)
    refine ⟨inner, hinner, ?_, hmerge⟩
    rintro rfl
    exact h.distinct e he (by rw [hinner, hw])

theorem Normal.settled (h : s.Normal) (hs : s.Every CanonicalChoice) : s.Settled := by
  constructor
  · intro e he
    rcases hw : s.wildcard with _ | _ | common
    · rw [extent_none]
      exact bot_le
    · exact extent_plain_le rfl
    · obtain ⟨inner, hinner, _, hmerge⟩ := h.nested common hw e he
      rw [← hw]
      exact (wildcard_le_iff hs hw he).mpr ⟨inner, hinner, hmerge⟩
  · intro e he heq
    rcases hw : s.wildcard with _ | _ | common <;> rw [hw] at heq
    · cases heq
    · exact h.plain hw e he (Option.some.inj heq)
    · obtain ⟨inner, hinner, hne, _⟩ := h.nested common hw e he
      rw [hinner] at heq
      cases heq
      exact hne rfl

theorem Settled.contains_iff (h : s.Settled) : s.contains u = true ↔ s.select u ≠ s.wildcard := by
  cases hg : s.get? u with
  | none => simp [contains, hg, select_of_get?_none hg]
  | some a =>
    have hne : some a ≠ s.wildcard := h.get?_ne_wildcard hg
    simp [contains, hg, select_of_get?_some hg, hne]

theorem Canonical.of_hasLevel (hs : s.Canonical) (ht : s.HasLevel t) : t.Canonical := by
  induction ht with
  | refl => exact hs
  | tail _ hnests ih => exact ih.nests hnests

theorem depth_lt_of_nests (h : s.Nests t) : t.depth < s.depth := by
  rcases h with ⟨⟨u, c⟩, he, rfl⟩ | hw
  · exact depth_lt_of_mem_entries he
  · exact depth_lt_of_wildcard hw

/-- What a selection nests has fewer levels, so it may be taken to be canonical already. -/
theorem canonical_of_normal_levels (h : ∀ t, s.HasLevel t → Ascending t.entries ∧ t.Normal) :
    s.Canonical := by
  induction hn : s.depth using Nat.strong_induction_on generalizing s with
  | _ n ih =>
    have hinner : ∀ t, s.Nests t → t.Canonical := by
      intro t ht
      apply ih t.depth (hn ▸ depth_lt_of_nests ht) _ rfl
      intro r hr
      exact h r (.head ht hr)
    obtain ⟨hascending, hnormal⟩ := h s .refl
    have hsettled := hnormal.settled (every_canonicalChoice_iff.mpr hinner)
    exact .level hascending hsettled hinner

/-- Being canonical can be checked level by level, without following any path. -/
theorem canonical_iff_normal_levels :
    s.Canonical ↔ ∀ t, s.HasLevel t → Ascending t.entries ∧ t.Normal := by
  constructor
  · intro hs t ht
    have hcanonical := hs.of_hasLevel ht
    have horderly := hcanonical.orderly
    exact ⟨horderly.ascending, hcanonical.settled.normal horderly.choices⟩
  · exact canonical_of_normal_levels

/-- Every level of a reachable selection lists only what says more than its wildcard, so it lists
exactly the properties that the wildcard does not answer for. -/
theorem levels_in_normal_form (hs : s.Reachable) (ht : s.HasLevel t) :
    t.Normal ∧ ∀ u, t.contains u = true ↔ t.select u ≠ t.wildcard := by
  have hcanonical : t.Canonical := hs.canonical.of_hasLevel ht
  exact ⟨(canonical_iff_normal_levels.mp hs.canonical t ht).2,
    fun _ => hcanonical.settled.contains_iff⟩

/-- What a wildcard nests: an entry beside another wildcard that nests. -/
theorem levels_in_normal_form_common :
    ((ofProperties [.nestedWildcard [.nested ⟨"n#", "b", none⟩ [.named ⟨"n#", "c", none⟩],
          .nestedWildcard [.named ⟨"n#", "a", none⟩]]]).Reachable ∧
      (ofProperties [.nestedWildcard [.nested ⟨"n#", "b", none⟩ [.named ⟨"n#", "c", none⟩],
          .nestedWildcard [.named ⟨"n#", "a", none⟩]]]).HasLevel
        (.mk [("n#b", .nested (.mk [("n#a", .plain), ("n#c", .plain)] none))]
          (some (.nested (.mk [("n#a", .plain)] none))))) ∧
    (Selection.mk [("n#b", .nested (.mk [("n#a", .plain), ("n#c", .plain)] none))]
        (some (.nested (.mk [("n#a", .plain)] none)))).Normal ∧
    ∀ u, (Selection.mk [("n#b", .nested (.mk [("n#a", .plain), ("n#c", .plain)] none))]
          (some (.nested (.mk [("n#a", .plain)] none)))).contains u = true ↔
      (Selection.mk [("n#b", .nested (.mk [("n#a", .plain), ("n#c", .plain)] none))]
          (some (.nested (.mk [("n#a", .plain)] none)))).select u ≠
        some (.nested (.mk [("n#a", .plain)] none)) := by
  have hs := Reachable.ofProperties [.nestedWildcard [.nested ⟨"n#", "b", none⟩
    [.named ⟨"n#", "c", none⟩], .nestedWildcard [.named ⟨"n#", "a", none⟩]]]
  have hnests : (ofProperties [.nestedWildcard [.nested ⟨"n#", "b", none⟩
        [.named ⟨"n#", "c", none⟩], .nestedWildcard [.named ⟨"n#", "a", none⟩]]]).wildcard =
      some (.nested (.mk [("n#b", .nested (.mk [("n#a", .plain), ("n#c", .plain)] none))]
        (some (.nested (.mk [("n#a", .plain)] none))))) := by decide +kernel
  have ht : HasLevel _ _ := .single (Or.inr hnests)
  exact ⟨⟨hs, ht⟩, levels_in_normal_form hs ht⟩

end ResourceQuery.Selection
