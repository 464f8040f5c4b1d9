import ResourceQuery.Proofs.Selection.Reachable

/-!
# What a merge answers

The merge of two selections answers for every property what their two answers come to. It makes
no difference which of the two lists the property and which wildcards they have: an entry that
only one of them has is joined to the wildcard of the other when the level is settled, and an
entry that is dropped there is answered by the wildcard as before.
-/

namespace ResourceQuery.Selection

set_option autoImplicit false

variable {s t : Selection} {a : Choice} {u : String}

/-- What two answers for one property come to. -/
def union : Option Choice → Option Choice → Option Choice
  | none, d => d
  | c, none => c
  | some .plain, d => d
  | c, some .plain => c
  | some (.nested s), some (.nested t) => some (.nested (merge s t))

theorem union_eq_merge (c d : Option Choice) : union c d = Option.merge Choice.join c d := by
  cases c with
  | none => rw [union, Option.merge_none_left]
  | some a =>
    cases d with
    | none =>
      rw [Option.merge_none_right]
      cases a <;> rfl
    | some b => cases a <;> cases b <;> rfl

theorem Canonical.canonicalChoice (hs : s.Canonical) (h : s.select u = some a) :
    CanonicalChoice a := by
  rintro t rfl
  exact hs.nests (nests_of_select h)

/-- Both sides are canonical and show the greater of the two extents along every path. -/
theorem Canonical.select_merge (hs : s.Canonical) (ht : t.Canonical) (u : String) :
    (Selection.merge s t).select u = union (s.select u) (t.select u) := by
  have hsu : ∀ a, s.select u = some a → CanonicalChoice a := fun _ => hs.canonicalChoice
  have htu : ∀ a, t.select u = some a → CanonicalChoice a := fun _ => ht.canonicalChoice
  have hextent : extent ((Selection.merge s t).select u) =
      extent (union (s.select u) (t.select u)) := by
    rw [extent_select_merge hs ht, union_eq_merge, joinsOn_canonical.extent_merge hsu htu]
  apply eq_of_extent_eq hextent
  intro x y hx hy hxy
  have hxcanonical : x.Canonical := (hs.merge ht).nests (nests_of_select hx)
  have hycanonical : y.Canonical := by
    rw [union_eq_merge] at hy
    exact every_merge_wildcard joinsOn_canonical.closed hsu htu _ hy y rfl
  exact hxcanonical.eq_of_extent hycanonical hxy

/-- A merge shows what one of the two shows, and nests what both nest, merged. -/
theorem select_merge_eq_union (hs : s.Reachable) (ht : t.Reachable) (u : String) :
    (merge s t).select u = union (s.select u) (t.select u) :=
  hs.canonical.select_merge ht.canonical u

/-- The first of the two lists nothing, and what its wildcard nests is absorbed by what the second
lists. -/
theorem select_merge_eq_union_unlisted :
    ((ofProperties [.nestedWildcard [.named ⟨"n#", "b", none⟩]]).Reachable ∧
      (ofProperties [.nested ⟨"n#", "a", none⟩ [.wildcard], .wildcard]).Reachable) ∧
    (merge (ofProperties [.nestedWildcard [.named ⟨"n#", "b", none⟩]])
        (ofProperties [.nested ⟨"n#", "a", none⟩ [.wildcard], .wildcard])).select "n#a" =
      some (.nested (.mk [] (some .plain))) := by
  have hs := Reachable.ofProperties [.nestedWildcard [.named ⟨"n#", "b", none⟩]]
  have ht := Reachable.ofProperties [.nested ⟨"n#", "a", none⟩ [.wildcard], .wildcard]
  exact ⟨⟨hs, ht⟩, (select_merge_eq_union hs ht "n#a").trans (by decide +kernel)⟩

end ResourceQuery.Selection
