import ResourceQuery.PrefixMap
import ResourceQuery.Proofs.Basics

/-!
# What a map holds after some bindings

Prefixes are bound one after another. The map then holds each of them once, in the order in which
they were bound for the first time, and each with the namespace that it was bound to last. One
more binding keeps this so, hence it holds of any run of them, and there is only one map of which
it does.
-/

namespace ResourceQuery

set_option autoImplicit false

variable {k v : String} {l : List (String × String)} {p : String × String}

theorem lookup_bindPair (k v : String) (l : List (String × String)) (k' : String) :
    (bindPair k v l).lookup k' = if k' = k then some v else l.lookup k' := by
  induction l with
  | nil => exact lookup_cons_pair k v [] k'
  | cons head rest ih =>
    obtain ⟨k₀, v₀⟩ := head
    by_cases h₀ : k₀ = k
    · subst h₀
      rw [bindPair, if_pos rfl, lookup_cons_pair, lookup_cons_pair]
      split <;> rfl
    · rw [bindPair, if_neg h₀, lookup_cons_pair, lookup_cons_pair, ih]
      by_cases h : k' = k₀
      · subst h
        rw [if_pos rfl, if_pos rfl, if_neg h₀]
      · rw [if_neg h, if_neg h]

theorem bindPair_of_notMem (h : k ∉ l.map Prod.fst) : bindPair k v l = l ++ [(k, v)] := by
  induction l with
  | nil => rfl
  | cons head rest ih =>
    obtain ⟨k₀, v₀⟩ := head
    simp only [List.map_cons, List.mem_cons, not_or] at h
    rw [bindPair, if_neg (Ne.symm h.1), ih h.2, List.cons_append]

theorem mem_of_mem_bindPair (h : p ∈ bindPair k v l) : p = (k, v) ∨ p ∈ l := by
  induction l with
  | nil => exact Or.inl (List.mem_singleton.mp h)
  | cons head rest ih =>
    obtain ⟨k₀, v₀⟩ := head
    simp only [bindPair] at h
    split at h
    · exact (List.mem_cons.mp h).imp_right (List.mem_cons_of_mem _)
    · rcases List.mem_cons.mp h with rfl | h
      · exact Or.inr List.mem_cons_self
      · exact (ih h).imp_right (List.mem_cons_of_mem _)

namespace PrefixMap

variable {m n : PrefixMap} {pairs later : List (String × String)}

/-- The map holds what comes of binding the pairs in turn: each prefix once, in the order of their
first bindings, and with the namespace of its last one. -/
structure Holds (m : PrefixMap) (pairs : List (String × String)) : Prop where
  order : m.pairs.map Prod.fst = (pairs.map Prod.fst).eraseDups
  latest : ∀ pfx, m.resolve pfx = pairs.reverse.lookup pfx

theorem holds_empty : empty.Holds [] := ⟨rfl, fun _ => rfl⟩

theorem Holds.insert (h : m.Holds pairs) (pfx space : String) :
    (m.insert pfx space).Holds (pairs ++ [(pfx, space)]) := by
  constructor
  · have hkeys : (m.insert pfx space).pairs.map Prod.fst = _ := keys_bindPair pfx space m.pairs
    rw [hkeys, h.order, List.map_append, List.map_singleton, eraseDups_concat]
    simp only [List.mem_eraseDups]
  · intro k
    have hlookup : (m.insert pfx space).resolve k = _ := lookup_bindPair pfx space m.pairs k
    have hlatest : m.pairs.lookup k = _ := h.latest k
    rw [hlookup, hlatest, List.reverse_concat, lookup_cons_pair]

/-- The map after binding more pairs in turn. -/
def insertAll (m : PrefixMap) (pairs : List (String × String)) : PrefixMap :=
  pairs.foldl (fun m p => m.insert p.1 p.2) m

theorem Holds.insertAll (h : m.Holds pairs) (later : List (String × String)) :
    (m.insertAll later).Holds (pairs ++ later) := by
  induction later generalizing m pairs with
  | nil => rwa [List.append_nil]
  | cons p later ih =>
    have hlater := ih (h.insert p.1 p.2)
    rwa [List.append_assoc] at hlater

theorem holds_ofList (pairs : List (String × String)) : (ofList pairs).Holds pairs :=
  holds_empty.insertAll pairs

example : (ofList [("a", "u"), ("b", "v"), ("a", "w")]).pairs = [("a", "w"), ("b", "v")] := by
  decide

theorem Holds.pairs_eq (h : m.Holds pairs) :
    m.pairs = (pairs.map Prod.fst).eraseDups.filterMap fun k =>
      (pairs.reverse.lookup k).map (k, ·) := by
  rw [eq_filterMap_keys m.distinct, h.order]
  congr 1
  funext k
  exact congrArg (Option.map (k, ·)) (h.latest k)

theorem ext_pairs (h : m.pairs = n.pairs) : m = n := by
  cases m
  cases n
  cases h
  rfl

theorem holds_iff : m.Holds pairs ↔ m = ofList pairs := by
  constructor
  · intro h
    apply ext_pairs
    rw [h.pairs_eq, (holds_ofList pairs).pairs_eq]
  · rintro rfl
    exact holds_ofList pairs

theorem mem_of_mem_insertAll {p : String × String} (h : p ∈ (m.insertAll later).pairs) :
    p ∈ m.pairs ∨ p ∈ later := by
  induction later generalizing m with
  | nil => exact Or.inl h
  | cons q later ih =>
    rcases ih h with h | h
    · rcases mem_of_mem_bindPair h with rfl | h
      · exact Or.inr List.mem_cons_self
      · exact Or.inl h
    · exact Or.inr (List.mem_cons_of_mem _ h)

theorem pairs_insertAll (h : ((m.pairs ++ later).map Prod.fst).Nodup) :
    (m.insertAll later).pairs = m.pairs ++ later := by
  induction later generalizing m with
  | nil => rw [List.append_nil]; rfl
  | cons p later ih =>
    have hp : p.1 ∉ m.pairs.map Prod.fst := by
      intro hmem
      rw [List.map_append, List.map_cons, List.nodup_append] at h
      exact h.2.2 p.1 hmem p.1 List.mem_cons_self rfl
    have hstep : (m.insert p.1 p.2).pairs = m.pairs ++ [p] := bindPair_of_notMem hp
    have hlater : (((m.insert p.1 p.2).pairs ++ later).map Prod.fst).Nodup := by
      rwa [hstep, List.append_assoc]
    have hall := ih hlater
    rwa [hstep, List.append_assoc] at hall

/-- Every map is built by its own pairs. -/
theorem ofList_pairs (m : PrefixMap) : ofList m.pairs = m :=
  ext_pairs (pairs_insertAll (m := empty) m.distinct)

end PrefixMap

end ResourceQuery
