import ResourceQuery.Proofs.Selection.Asking

/-!
# Reachable selections

A client starts from the empty selection and from property lists, merges selections, and
descends into what they nest. Every selection that it can reach so is canonical. On these,
`merge` is the join of a semilattice whose least element is the empty selection, and two of
them are equal as soon as no path of URIs, looked up one after another, tells them apart.
-/

namespace ResourceQuery.Selection

set_option autoImplicit false

variable {r s t : Selection} {u : String}

inductive Reachable : Selection → Prop where
  | empty : Reachable empty
  | ofProperties (ps : List Property) : Reachable (ofProperties ps)
  | merge {s t : Selection} (hs : Reachable s) (ht : Reachable t) : Reachable (merge s t)
  | entry {s t : Selection} {u : String} (hs : Reachable s) (h : (u, .nested t) ∈ s.entries) :
    Reachable t
  | common {s t : Selection} (hs : Reachable s) (h : s.common? = some t) : Reachable t

theorem wildcard_of_common? (h : s.common? = some t) : s.wildcard = some (.nested t) := by
  unfold common? at h
  split at h
  · rename_i inner hw
    rw [hw, Option.some.inj h]
  · cases h

theorem common?_of_wildcard (h : s.wildcard = some (.nested t)) : s.common? = some t := by
  rw [common?, h]

theorem Reachable.canonical (h : s.Reachable) : s.Canonical := by
  induction h with
  | empty => exact canonical_empty
  | ofProperties ps => exact canonical_ofProperties ps
  | merge _ _ hs ht => exact hs.merge ht
  | entry _ h hs => exact hs.nests (Or.inl ⟨_, h, rfl⟩)
  | common _ h hs => exact hs.nests (Or.inr (wildcard_of_common? h))

theorem Reachable.select (hs : s.Reachable) (h : s.select u = some (.nested t)) :
    t.Reachable := by
  cases hg : s.get? u with
  | none =>
    rw [select_of_get?_none hg] at h
    exact .common hs (common?_of_wildcard h)
  | some a =>
    rw [select_of_get?_some hg, Option.some.injEq] at h
    rw [h] at hg
    exact .entry hs (mem_of_lookup hg)

theorem merge_semilattice (hr : r.Reachable) (hs : s.Reachable) (ht : t.Reachable) :
    merge r s = merge s r ∧
    merge (merge r s) t = merge r (merge s t) ∧
    merge r r = r ∧
    merge r empty = r ∧
    merge empty r = r := by
  have hunit : merge r empty = r := hr.canonical.merge_empty
  refine ⟨hr.canonical.merge_comm hs.canonical,
    hr.canonical.merge_assoc hs.canonical ht.canonical, merge_self r, hunit, ?_⟩
  rw [canonical_empty.merge_comm hr.canonical, hunit]

/-- A wildcard that nests, what it nests, and a name beside another wildcard. -/
theorem merge_semilattice_wildcards :
    ((ofProperties [.nestedWildcard [.named ⟨"n#", "b", none⟩]]).Reachable ∧
      (ofProperties [.nested ⟨"n#", "a", none⟩ [.wildcard], .wildcard]).Reachable ∧
      (ofProperties [.named ⟨"n#", "b", none⟩]).Reachable) ∧
    merge (ofProperties [.nestedWildcard [.named ⟨"n#", "b", none⟩]])
        (ofProperties [.nested ⟨"n#", "a", none⟩ [.wildcard], .wildcard]) =
      merge (ofProperties [.nested ⟨"n#", "a", none⟩ [.wildcard], .wildcard])
        (ofProperties [.nestedWildcard [.named ⟨"n#", "b", none⟩]]) ∧
    merge (merge (ofProperties [.nestedWildcard [.named ⟨"n#", "b", none⟩]])
        (ofProperties [.nested ⟨"n#", "a", none⟩ [.wildcard], .wildcard]))
        (ofProperties [.named ⟨"n#", "b", none⟩]) =
      merge (ofProperties [.nestedWildcard [.named ⟨"n#", "b", none⟩]])
        (merge (ofProperties [.nested ⟨"n#", "a", none⟩ [.wildcard], .wildcard])
          (ofProperties [.named ⟨"n#", "b", none⟩])) ∧
    merge (ofProperties [.nestedWildcard [.named ⟨"n#", "b", none⟩]])
        (ofProperties [.nestedWildcard [.named ⟨"n#", "b", none⟩]]) =
      ofProperties [.nestedWildcard [.named ⟨"n#", "b", none⟩]] ∧
    merge (ofProperties [.nestedWildcard [.named ⟨"n#", "b", none⟩]]) empty =
      ofProperties [.nestedWildcard [.named ⟨"n#", "b", none⟩]] ∧
    merge empty (ofProperties [.nestedWildcard [.named ⟨"n#", "b", none⟩]]) =
      ofProperties [.nestedWildcard [.named ⟨"n#", "b", none⟩]] := by
  have hr := Reachable.ofProperties [.nestedWildcard [.named ⟨"n#", "b", none⟩]]
  have hs := Reachable.ofProperties [.nested ⟨"n#", "a", none⟩ [.wildcard], .wildcard]
  have ht : (ofProperties [.named ⟨"n#", "b", none⟩]).Reachable := .common hr rfl
  exact ⟨⟨hr, hs, ht⟩, merge_semilattice hr hs ht⟩

/-- What looking up the URIs of a path one after another tells, up to the first property that
is not shown or not descended into. -/
def answers (s : Selection) : List String → List Extent
  | [] => []
  | u :: path =>
    match s.select u with
    | none => [.hidden]
    | some .plain => [.plain]
    | some (.nested t) => .nested :: answers t path

/-- The extent at the end of a path is the last of its answers, if the path is followed so
far. -/
theorem extent_eq_getD_answers (s : Selection) (u : String) (path : List String) :
    extent (s.select u) path = ((answers s (u :: path))[path.length]?).getD ⊥ := by
  induction path generalizing s u with
  | nil =>
    simp only [answers]
    match s.select u with
    | none | some .plain | some (.nested t) => rfl
  | cons v path ih =>
    rw [answers]
    match s.select u with
    | none | some .plain => rfl
    | some (.nested t) => exact ih t v

theorem extent_eq_of_answers_eq (h : ∀ path, answers s path = answers t path) (u : String) :
    extent (s.select u) = extent (t.select u) := by
  funext path
  rw [extent_eq_getD_answers, extent_eq_getD_answers, h (u :: path)]

theorem eq_iff_answers_eq (hs : s.Reachable) (ht : t.Reachable) :
    s = t ↔ ∀ path, answers s path = answers t path := by
  constructor
  · rintro rfl path
    rfl
  · intro h
    exact hs.canonical.eq_of_extent ht.canonical (extent_eq_of_answers_eq h)

/-- A list with a wildcard that nests, and the merge of two lists that ask for the same. -/
theorem eq_iff_answers_eq_wildcard :
    ((ofProperties [.named ⟨"n#", "a", none⟩, .nestedWildcard [.wildcard]]).Reachable ∧
      (merge (ofProperties [.nestedWildcard [.wildcard]])
        (ofProperties [.named ⟨"n#", "a", none⟩])).Reachable) ∧
    (ofProperties [.named ⟨"n#", "a", none⟩, .nestedWildcard [.wildcard]] =
        merge (ofProperties [.nestedWildcard [.wildcard]])
          (ofProperties [.named ⟨"n#", "a", none⟩]) ↔
      ∀ path,
        answers (ofProperties [.named ⟨"n#", "a", none⟩, .nestedWildcard [.wildcard]]) path =
          answers (merge (ofProperties [.nestedWildcard [.wildcard]])
            (ofProperties [.named ⟨"n#", "a", none⟩])) path) := by
  have hs := Reachable.ofProperties [.named ⟨"n#", "a", none⟩, .nestedWildcard [.wildcard]]
  have ht := Reachable.merge (.ofProperties [.nestedWildcard [.wildcard]])
    (.ofProperties [.named ⟨"n#", "a", none⟩])
  exact ⟨⟨hs, ht⟩, eq_iff_answers_eq hs ht⟩

end ResourceQuery.Selection
