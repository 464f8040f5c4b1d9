import ResourceQuery.Proofs.Selection.MergeLaws
import ResourceQuery.Selection.Inversion

/-!
# What a property list asks for

Read naively, a list shows a property to the greatest extent that some listed property which
covers it asks for. `ofProperties` shows exactly that. While the list is read, the level is not
settled: what it will show of a property is the greater of what is listed for the property and
the wildcard, and each listed property raises that by what it asks for, also a name that is
skipped because a wildcard stands before it. So two lists that are read as one ask for the merge
of what they ask for apart.
-/

namespace ResourceQuery

set_option autoImplicit false

namespace Property

/-- Whether a listed property is about the one that `u` names. -/
def covers (p : Property) (u : String) : Bool :=
  p.isWildcard || p.name?.any fun name => name.uri == u

/-- How a listed property asks the properties that it covers to be shown. -/
def choice (p : Property) : Choice :=
  match p.children? with
  | none => .plain
  | some children => .nested (.ofProperties children)

def covering (ps : List Property) (u : String) : List Property := ps.filter fun p => p.covers u

/-- The greatest extent that some of the listed properties ask for. -/
def greatest : List Property → List String → Extent
  | [] => ⊥
  | p :: ps => Selection.extent (some p.choice) ⊔ greatest ps

variable {p q : Property} {ps qs : List Property} {u : String}

theorem covering_cons : covering (p :: ps) u =
    if p.covers u then p :: covering ps u else covering ps u := List.filter_cons

theorem covering_append : covering (ps ++ qs) u = covering ps u ++ covering qs u :=
  List.filter_append ..

theorem greatest_append : greatest (ps ++ qs) = greatest ps ⊔ greatest qs := by
  induction ps with
  | nil => exact (bot_sup_eq _).symm
  | cons p ps ih => rw [List.cons_append, greatest, greatest, ih, sup_assoc]

theorem le_greatest (h : p ∈ ps) : Selection.extent (some p.choice) ≤ greatest ps := by
  induction ps with
  | nil => cases h
  | cons q ps ih =>
    rcases List.mem_cons.mp h with rfl | h
    · exact le_sup_left
    · exact le_trans (ih h) le_sup_right

theorem greatest_le {x : List String → Extent}
    (h : ∀ p ∈ ps, Selection.extent (some p.choice) ≤ x) : greatest ps ≤ x := by
  induction ps with
  | nil => exact bot_le
  | cons p ps ih =>
    exact sup_le (h p List.mem_cons_self) (ih fun q hq => h q (List.mem_cons_of_mem _ hq))

theorem greatest_covering_cons : greatest (covering (p :: ps) u) =
    (if p.covers u then Selection.extent (some p.choice) else ⊥) ⊔ greatest (covering ps u) := by
  rw [covering_cons]
  split
  · rfl
  · rw [bot_sup_eq]

end Property

namespace Selection

open Property

variable {s : Selection} {c : Choice} {u v : String} {p : Property} {ps : List Property}

/-- What a level will show of a property once it is settled. -/
def levelExtent (s : Selection) (u : String) : List String → Extent :=
  extent (s.get? u) ⊔ extent s.wildcard

theorem orderly_empty : empty.Orderly := canonical_empty.orderly

theorem Orderly.insert (h : s.Orderly) (hc : CanonicalChoice c) : (s.insert u c).Orderly := by
  refine ⟨h.ascending.insertWith, ?_, h.choices.wildcard⟩
  exact forall_mem_insertWith joinsOn_canonical.closed h.choices.entries hc

theorem Orderly.widen (h : s.Orderly) (hc : CanonicalChoice c) : (s.widen c).Orderly := by
  refine ⟨h.ascending, h.choices.entries, ?_⟩
  exact every_merge_wildcard joinsOn_canonical.closed h.choices.wildcard (forall_of_some_eq hc)

theorem Orderly.levelExtent_insert (h : s.Orderly) (hc : CanonicalChoice c) :
    levelExtent (s.insert v c) u =
      levelExtent s u ⊔ if v = u then extent (some c) else ⊥ := by
  have hget : (s.insert v c).get? u =
      if u = v then Option.merge Choice.join (s.get? v) (some c) else s.get? u :=
    lookup_insertWith h.ascending
  have hw : (s.insert v c).wildcard = s.wildcard := rfl
  unfold levelExtent
  rw [hget, hw]
  by_cases hv : v = u
  · subst hv
    rw [if_pos rfl, if_pos rfl,
      joinsOn_canonical.extent_merge h.choices.get? (forall_of_some_eq hc)]
    exact sup_right_comm ..
  · rw [if_neg (Ne.symm hv), if_neg hv, sup_bot_eq]

theorem Orderly.levelExtent_widen (h : s.Orderly) (hc : CanonicalChoice c) :
    levelExtent (s.widen c) u = levelExtent s u ⊔ extent (some c) := by
  have hget : (s.widen c).get? u = s.get? u := rfl
  have hw : (s.widen c).wildcard = Option.merge Choice.join s.wildcard (some c) := rfl
  unfold levelExtent
  rw [hget, hw, joinsOn_canonical.extent_merge h.choices.wildcard (forall_of_some_eq hc),
    sup_assoc]

theorem Orderly.canonical_settled (h : s.Orderly) : s.settled.Canonical :=
  joinsOn_canonical.canonical_settle (fun _ ha => ha) h.ascending h.choices.entries
    h.choices.wildcard

theorem Orderly.extent_settled (h : s.Orderly) :
    extent (s.settled.select u) = levelExtent s u :=
  joinsOn_canonical.extent_settle h.ascending h.choices.entries h.choices.wildcard

theorem Orderly.addTo (h : s.Orderly) (hp : CanonicalChoice p.choice) : (p.addTo s).Orderly := by
  cases p with
  | named name =>
    simp only [Property.addTo]
    split
    · exact h
    · exact h.insert hp
  | wildcard => exact h.widen hp
  | nested name children => exact h.insert hp
  | nestedWildcard children => exact h.widen hp

/-- A property that is read raises what it covers by what it asks for. A name after a wildcard
asks for no more than the wildcard gives already, so it may be skipped. -/
theorem Orderly.levelExtent_addTo (h : s.Orderly) (hp : CanonicalChoice p.choice) :
    levelExtent (p.addTo s) u =
      levelExtent s u ⊔ if p.covers u then extent (some p.choice) else ⊥ := by
  cases p with
  | named name =>
    simp only [Property.addTo]
    split
    · rename_i hshows
      have hle : extent (some .plain) ≤ levelExtent s u :=
        le_trans (extent_plain_le hshows) le_sup_right
      have hasked : (if (Property.named name).covers u then extent (some .plain) else ⊥) ≤
          levelExtent s u := by
        split
        · exact hle
        · exact bot_le
      exact (sup_eq_left.mpr hasked).symm
    · have hins := h.levelExtent_insert (u := u) (v := name.uri) hp
      simp only [covers, isWildcard, name?, Bool.false_or, Option.any_some, beq_iff_eq]
      exact hins
  | wildcard => exact h.levelExtent_widen hp
  | nested name children =>
    have hins := h.levelExtent_insert (u := u) (v := name.uri) hp
    simp only [covers, isWildcard, name?, Bool.false_or, Option.any_some, beq_iff_eq]
    exact hins
  | nestedWildcard children => exact h.levelExtent_widen hp

theorem Orderly.addAllTo (h : s.Orderly) (hps : ∀ p ∈ ps, CanonicalChoice p.choice) :
    (Property.addAllTo s ps).Orderly := by
  induction ps generalizing s with
  | nil => exact h
  | cons p ps ih =>
    exact ih (h.addTo (hps p List.mem_cons_self)) (fun q hq => hps q (List.mem_cons_of_mem _ hq))

theorem Orderly.levelExtent_addAllTo (h : s.Orderly)
    (hps : ∀ p ∈ ps, CanonicalChoice p.choice) :
    levelExtent (Property.addAllTo s ps) u = levelExtent s u ⊔ greatest (covering ps u) := by
  induction ps generalizing s with
  | nil => exact (sup_bot_eq _).symm
  | cons p ps ih =>
    have hp : CanonicalChoice p.choice := hps p List.mem_cons_self
    have htail := ih (h.addTo hp) (fun q hq => hps q (List.mem_cons_of_mem _ hq))
    rw [h.levelExtent_addTo hp, sup_assoc, ← greatest_covering_cons] at htail
    exact htail

mutual

theorem canonicalChoice_choice : ∀ p : Property, CanonicalChoice p.choice
  | .named _ => canonicalChoice_plain
  | .wildcard => canonicalChoice_plain
  | .nested _ children => canonicalChoice_nested
      (orderly_empty.addAllTo (every_canonicalChoice children)).canonical_settled
  | .nestedWildcard children => canonicalChoice_nested
      (orderly_empty.addAllTo (every_canonicalChoice children)).canonical_settled

theorem every_canonicalChoice : ∀ ps : List Property, ∀ p ∈ ps, CanonicalChoice p.choice
  | [] => nofun
  | p :: ps => List.forall_mem_cons.mpr ⟨canonicalChoice_choice p, every_canonicalChoice ps⟩

end

theorem canonical_ofProperties (ps : List Property) : (ofProperties ps).Canonical :=
  (orderly_empty.addAllTo (every_canonicalChoice ps)).canonical_settled

theorem extent_select_ofProperties (ps : List Property) (u : String) :
    extent ((ofProperties ps).select u) = greatest (covering ps u) := by
  have horderly := orderly_empty.addAllTo (every_canonicalChoice ps)
  have hempty : levelExtent empty u = ⊥ := by
    have hget : empty.get? u = none := rfl
    have hw : empty.wildcard = none := rfl
    rw [levelExtent, hget, hw, extent_none, bot_sup_eq]
  calc extent ((ofProperties ps).select u)
    _ = levelExtent (Property.addAllTo empty ps) u := horderly.extent_settled
    _ = levelExtent empty u ⊔ greatest (covering ps u) :=
      orderly_empty.levelExtent_addAllTo (every_canonicalChoice ps)
    _ = greatest (covering ps u) := by rw [hempty, bot_sup_eq]

/-- A list that goes on with another one asks for what both ask for. Each of the two settles its
levels on its own, and nothing that is dropped there is missed when they are merged. -/
theorem ofProperties_append (ps qs : List Property) :
    ofProperties (ps ++ qs) = merge (ofProperties ps) (ofProperties qs) := by
  have hps := canonical_ofProperties ps
  have hqs := canonical_ofProperties qs
  apply (canonical_ofProperties (ps ++ qs)).eq_of_extent (hps.merge hqs)
  intro u
  calc extent ((ofProperties (ps ++ qs)).select u)
    _ = greatest (covering ps u) ⊔ greatest (covering qs u) := by
      rw [extent_select_ofProperties, covering_append, greatest_append]
    _ = extent ((ofProperties ps).select u) ⊔ extent ((ofProperties qs).select u) := by
      rw [extent_select_ofProperties, extent_select_ofProperties]
    _ = extent ((merge (ofProperties ps) (ofProperties qs)).select u) :=
      (extent_select_merge hps hqs u).symm

end Selection

end ResourceQuery
