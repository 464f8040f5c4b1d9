import Mathlib.Data.List.Basic

/-!
# Results, lists and texts

Facts about results that may be errors, about lists and their look-ups, and about texts, that hold
whatever is read or written.
-/

namespace ResourceQuery

set_option autoImplicit false

section Results

variable {α β γ ε : Type} {r : Except ε α} {e : ε} {b : β}

theorem map_eq_ok_iff {f : α → β} : r.map f = .ok b ↔ ∃ a, r = .ok a ∧ f a = b := by
  cases r with
  | error e => exact ⟨nofun, nofun⟩
  | ok a =>
    constructor
    · rintro ⟨⟩
      exact ⟨a, rfl, rfl⟩
    · rintro ⟨_, ⟨⟩, rfl⟩
      rfl

theorem map_eq_error_iff {f : α → β} : r.map f = .error e ↔ r = .error e := by
  cases r with
  | error e' =>
    constructor
    · rintro ⟨⟩
      rfl
    · rintro ⟨⟩
      rfl
  | ok a => exact ⟨nofun, nofun⟩

theorem mapError_eq_ok_iff {ε' : Type} {f : ε → ε'} {a : α} :
    r.mapError f = .ok a ↔ r = .ok a := by
  cases r <;> simp [Except.mapError]

theorem exists_map_eq_ok_iff {f : α → β} : (∃ b, r.map f = .ok b) ↔ ∃ a, r = .ok a := by
  cases r <;> simp [Except.map]

theorem bind_eq_ok_iff {f : α → Except ε β} : r >>= f = .ok b ↔ ∃ a, r = .ok a ∧ f a = .ok b := by
  cases r with
  | error e => exact ⟨nofun, nofun⟩
  | ok a =>
    constructor
    · intro h
      exact ⟨a, rfl, h⟩
    · rintro ⟨_, ⟨⟩, h⟩
      exact h

theorem bind_eq_error_iff {f : α → Except ε β} :
    r >>= f = .error e ↔ r = .error e ∨ ∃ a, r = .ok a ∧ f a = .error e := by
  cases r <;> simp [bind, Except.bind]

theorem bind_pure_eq_map_map {f : α → β} {g : α → γ} {h : γ → β} (hf : ∀ a, f a = h (g a)) :
    (r >>= fun a => pure (f a)) = (r.map g).map h := by
  cases r with
  | error e => rfl
  | ok a => exact congrArg Except.ok (hf a)

end Results

section Lists

variable {α β : Type}

theorem eq_of_option_map_eq {f : α → β} {o o' : Option α} (h : o.map f = o'.map f)
    (hf : ∀ a ∈ o, ∀ b ∈ o', f a = f b → a = b) : o = o' := by
  cases o with
  | none => exact (Option.map_eq_none_iff.mp h.symm).symm
  | some a =>
    cases o' with
    | none => cases h
    | some b => rw [hf a rfl b rfl (Option.some.inj h)]

/-- Lists of members that are each told apart are told apart. -/
theorem eq_of_map_eq_map {f : α → β} {as bs : List α} (hf : ∀ a ∈ as, ∀ b ∈ bs, f a = f b → a = b)
    (h : as.map f = bs.map f) : as = bs := by
  induction as generalizing bs with
  | nil => exact (List.map_eq_nil_iff.mp h.symm).symm
  | cons a as ih =>
    cases bs with
    | nil => cases h
    | cons b bs =>
      obtain ⟨hhead, htail⟩ := List.cons.inj h
      obtain rfl := hf a List.mem_cons_self b List.mem_cons_self hhead
      have hrest : ∀ c ∈ as, ∀ d ∈ bs, f c = f d → c = d := fun c hc d hd =>
        hf c (List.mem_cons_of_mem _ hc) d (List.mem_cons_of_mem _ hd)
      rw [ih hrest htail]

theorem drop_takeWhile (p : α → Bool) (as : List α) :
    as.drop (as.takeWhile p).length = as.dropWhile p := by
  have h := congrArg (List.drop (as.takeWhile p).length)
    (List.takeWhile_append_dropWhile (p := p) (l := as))
  rw [List.drop_left] at h
  exact h.symm

/-- With a separator between any two items, each one but the first follows a separator. -/
theorem intercalate_cons (sep x : List α) (xs : List (List α)) :
    sep.intercalate (x :: xs) = x ++ xs.flatMap (sep ++ ·) := by
  induction xs generalizing x with
  | nil => rw [List.intercalate_singleton, List.flatMap_nil, List.append_nil]
  | cons y ys ih =>
    rw [List.intercalate_cons_cons, ih y, List.append_assoc, List.flatMap_cons, List.append_assoc]

theorem intercalate_singleton_cons (sep : α) (x : List α) (xs : List (List α)) :
    [sep].intercalate (x :: xs) = x ++ xs.flatMap (sep :: ·) := intercalate_cons [sep] x xs

theorem eraseDups_concat [DecidableEq α] (as : List α) (a : α) :
    (as ++ [a]).eraseDups = if a ∈ as then as.eraseDups else as.eraseDups ++ [a] := by
  rw [List.eraseDups_append]
  by_cases h : a ∈ as <;> simp [List.removeAll, List.eraseDups_cons, h]

end Lists

section Lookups

variable {κ ν : Type} [DecidableEq κ] {pairs pairs' : List (κ × ν)} {k : κ} {v : ν}

theorem lookup_cons_pair (k : κ) (v : ν) (pairs : List (κ × ν)) (k' : κ) :
    ((k, v) :: pairs).lookup k' = if k' = k then some v else pairs.lookup k' := by
  by_cases h : k' = k
  · rw [if_pos h, h, List.lookup_cons_self]
  · rw [if_neg h, List.lookup_cons, beq_false_of_ne h]

theorem lookup_eq_some_iff_mem (h : (pairs.map Prod.fst).Nodup) :
    pairs.lookup k = some v ↔ (k, v) ∈ pairs := by
  induction pairs with
  | nil => exact ⟨nofun, nofun⟩
  | cons p pairs ih =>
    obtain ⟨k', v'⟩ := p
    obtain ⟨hk', hpairs⟩ := List.nodup_cons.mp h
    rw [lookup_cons_pair, List.mem_cons, Prod.mk.injEq]
    by_cases heq : k = k'
    · subst heq
      have hlater : (k, v) ∉ pairs := fun hmem => hk' (List.mem_map.mpr ⟨_, hmem, rfl⟩)
      simp [hlater, eq_comm]
    · simp [heq, ih hpairs]

/-- Where no key stands twice, the order of the pairs does not matter. -/
theorem lookup_eq_of_perm (h : (pairs.map Prod.fst).Nodup) (hperm : pairs.Perm pairs') :
    pairs.lookup k = pairs'.lookup k := by
  have h' : (pairs'.map Prod.fst).Nodup := (hperm.map Prod.fst).nodup_iff.mp h
  apply Option.ext
  intro v
  rw [lookup_eq_some_iff_mem h, lookup_eq_some_iff_mem h', hperm.mem_iff]

/-- Where the last value counts, a pair does not count for the keys that are not its own, nor if its
own key comes again later. -/
theorem lookup_reverse_of_superseded {earlier later : List (κ × ν)} {k' : κ}
    (h : k = k' → k' ∈ later.map Prod.fst) :
    (earlier ++ (k', v) :: later).reverse.lookup k = (earlier ++ later).reverse.lookup k := by
  simp only [List.reverse_append, List.reverse_cons, List.append_assoc, List.lookup_append,
    List.singleton_append]
  cases hlater : later.reverse.lookup k with
  | some v => rfl
  | none =>
    rw [Option.none_or, Option.none_or, lookup_cons_pair, if_neg]
    rintro rfl
    obtain ⟨p, hp, hkey⟩ := List.mem_map.mp (h rfl)
    have hne := List.lookup_eq_none_iff.mp hlater p (List.mem_reverse.mpr hp)
    rw [hkey, bne_self_eq_false] at hne
    cases hne

/-- Where no key stands twice, a list is its keys in their order, each with what is found under
it. -/
theorem eq_filterMap_keys (h : (pairs.map Prod.fst).Nodup) :
    pairs = (pairs.map Prod.fst).filterMap fun k => (pairs.lookup k).map (k, ·) := by
  induction pairs with
  | nil => rfl
  | cons p pairs ih =>
    obtain ⟨k, v⟩ := p
    obtain ⟨hk, hpairs⟩ := List.nodup_cons.mp h
    have hlater : (pairs.map Prod.fst).filterMap
        (fun k' => (((k, v) :: pairs).lookup k').map (k', ·)) =
          (pairs.map Prod.fst).filterMap fun k' => (pairs.lookup k').map (k', ·) := by
      apply List.filterMap_congr
      intro k' hk'
      have hne : k' ≠ k := fun heq => hk (heq ▸ hk')
      rw [lookup_cons_pair, if_neg hne]
    rw [List.map_cons, List.filterMap_cons_some (b := (k, v)), hlater, ← ih hpairs]
    rw [List.lookup_cons_self, Option.map_some]

end Lookups

section Texts

theorem toList_intercalate_cons {α : Type} {f : α → String} (sep : String) (a : α) (as : List α) :
    (sep.intercalate ((a :: as).map f)).toList =
      (f a).toList ++ as.flatMap fun b => sep.toList ++ (f b).toList := by
  rw [String.toList_intercalate, List.map_map, List.map_cons, intercalate_cons, List.flatMap_map]
  rfl

theorem fromUTF8?_toUTF8 (s : String) : String.fromUTF8? s.toUTF8 = some s := by
  unfold String.fromUTF8?
  rw [String.toUTF8_eq_toByteArray, dif_pos s.isValidUTF8]
  rfl

end Texts

end ResourceQuery
