import ResourceQuery.Proofs.Selection.Asking

/-!
# Order and repetition

Nothing that a property list asks for depends on the order of its members or on how often one
of them is written, inside braces as well as outside. Two lists ask for the same as soon as
each member of one is matched by a member of the other that covers the same properties and
makes the same choice; every single rearrangement leaves such matches.
-/

namespace ResourceQuery

set_option autoImplicit false

namespace Property

/-- The second list comes from the first by putting siblings in another order and by writing
siblings again, at any depth. -/
inductive Rearranged : List Property → List Property → Prop where
  | reordered {ps qs : List Property} (h : ps.Perm qs) : Rearranged ps qs
  | repeated {p : Property} {ps : List Property} (h : p ∈ ps) : Rearranged ps (p :: ps)
  | inNested {name : QualifiedName} {cs ds ps : List Property} (h : Rearranged cs ds) :
    Rearranged (nested name cs :: ps) (nested name ds :: ps)
  | inWildcard {cs ds ps : List Property} (h : Rearranged cs ds) :
    Rearranged (nestedWildcard cs :: ps) (nestedWildcard ds :: ps)
  | trans {ps qs rs : List Property} (h : Rearranged ps qs) (k : Rearranged qs rs) :
    Rearranged ps rs

/-- Two listed properties cover the same properties and ask the same of them. -/
structure Matches (p q : Property) : Prop where
  covers : ∀ u, p.covers u = q.covers u
  choice : p.choice = q.choice

variable {p q : Property} {ps qs cs ds : List Property}

theorem Matches.refl (p : Property) : Matches p p := ⟨fun _ => rfl, rfl⟩

theorem Matches.symm (h : Matches p q) : Matches q p :=
  ⟨fun u => (h.covers u).symm, h.choice.symm⟩

def MatchedIn (ps qs : List Property) : Prop := ∀ p ∈ ps, ∃ q ∈ qs, Matches p q

theorem matchedIn_of_subset (h : ∀ p ∈ ps, p ∈ qs) : MatchedIn ps qs :=
  fun p hp => ⟨p, h p hp, .refl p⟩

theorem matchedIn_cons (h : Matches p q) : MatchedIn (p :: ps) (q :: ps) := by
  intro r hr
  rcases List.mem_cons.mp hr with rfl | hr
  · exact ⟨q, List.mem_cons_self, h⟩
  · exact ⟨r, List.mem_cons_of_mem _ hr, .refl r⟩

theorem MatchedIn.greatest_le (h : MatchedIn ps qs) (u : String) :
    greatest (covering ps u) ≤ greatest (covering qs u) := by
  apply Property.greatest_le
  intro p hp
  obtain ⟨hps, hcovers⟩ := List.mem_filter.mp hp
  obtain ⟨q, hq, hmatch⟩ := h p hps
  rw [hmatch.choice]
  apply le_greatest
  exact List.mem_filter.mpr ⟨hq, by rwa [← hmatch.covers u]⟩

end Property

namespace Selection

open Property

variable {ps qs : List Property}

theorem ofProperties_eq_of_matched (h : MatchedIn ps qs) (k : MatchedIn qs ps) :
    ofProperties ps = ofProperties qs := by
  apply (canonical_ofProperties ps).eq_of_extent (canonical_ofProperties qs)
  intro u
  rw [extent_select_ofProperties, extent_select_ofProperties]
  exact le_antisymm (h.greatest_le u) (k.greatest_le u)

theorem ofProperties_eq_of_matches {p q : Property} (h : Matches p q) :
    ofProperties (p :: ps) = ofProperties (q :: ps) :=
  ofProperties_eq_of_matched (matchedIn_cons h) (matchedIn_cons h.symm)

/-- A property list asks for the same however its siblings are ordered and repeated. -/
theorem ofProperties_rearranged (h : Rearranged ps qs) : ofProperties ps = ofProperties qs := by
  induction h with
  | reordered h =>
    apply ofProperties_eq_of_matched
    · exact matchedIn_of_subset fun _ hp => h.mem_iff.mp hp
    · exact matchedIn_of_subset fun _ hq => h.mem_iff.mpr hq
  | @repeated p ps h =>
    apply ofProperties_eq_of_matched
    · exact matchedIn_of_subset fun _ hq => List.mem_cons_of_mem p hq
    · exact matchedIn_of_subset (List.forall_mem_cons.mpr ⟨h, fun _ hq => hq⟩)
  | inNested _ ih => exact ofProperties_eq_of_matches ⟨fun _ => rfl, congrArg Choice.nested ih⟩
  | inWildcard _ ih => exact ofProperties_eq_of_matches ⟨fun _ => rfl, congrArg Choice.nested ih⟩
  | trans _ _ ih ih' => exact ih.trans ih'

/-- A name moves behind a wildcard and is written again there, and what the wildcard nests is
turned around. -/
theorem ofProperties_rearranged_behind_wildcard :
    Rearranged
      [.named ⟨"n#", "a", none⟩, .nestedWildcard [.named ⟨"n#", "b", none⟩, .wildcard]]
      [.nestedWildcard [.wildcard, .named ⟨"n#", "b", none⟩], .named ⟨"n#", "a", none⟩,
        .named ⟨"n#", "a", none⟩] ∧
    ofProperties
      [.named ⟨"n#", "a", none⟩, .nestedWildcard [.named ⟨"n#", "b", none⟩, .wildcard]] =
    ofProperties
      [.nestedWildcard [.wildcard, .named ⟨"n#", "b", none⟩], .named ⟨"n#", "a", none⟩,
        .named ⟨"n#", "a", none⟩] := by
  have hagain : Rearranged
      [.named ⟨"n#", "a", none⟩, .nestedWildcard [.named ⟨"n#", "b", none⟩, .wildcard]]
      [.nestedWildcard [.named ⟨"n#", "b", none⟩, .wildcard], .named ⟨"n#", "a", none⟩,
        .named ⟨"n#", "a", none⟩] :=
    .trans (.repeated List.mem_cons_self)
      (.reordered ((List.Perm.swap ..).cons _ |>.trans (.swap ..)))
  have hinner : Rearranged [.named ⟨"n#", "b", none⟩, .wildcard]
      [.wildcard, .named ⟨"n#", "b", none⟩] := .reordered (.swap ..)
  have h := hagain.trans (.inWildcard hinner)
  exact ⟨h, ofProperties_rearranged h⟩

end Selection

end ResourceQuery
