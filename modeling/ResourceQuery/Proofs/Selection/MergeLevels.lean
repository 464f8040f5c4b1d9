import ResourceQuery.Proofs.Selection.Entries

/-!
# A merge, level by level

`merge` counts levels down, because it also merges choices that earlier merges produced. The
count is bookkeeping only: no merge has more levels than its operands, so the count never runs
out, and `merge` is one level of merging that joins nested selections by `merge` itself.
-/

namespace ResourceQuery.Selection

set_option autoImplicit false

variable {join join' : Choice → Choice → Choice} {es fs : List (String × Choice)}
  {s t : Selection} {c c' : Choice} {w : Option Choice} {P : Choice → Prop} {d m n : Nat}

/-- Every choice of a level, listed or wildcard, satisfies `P`. -/
structure Every (P : Choice → Prop) (s : Selection) : Prop where
  entries : ∀ e ∈ s.entries, P e.2
  wildcard : ∀ c, s.wildcard = some c → P c

theorem Every.imp {Q : Choice → Prop} (h : s.Every P) (hpq : ∀ c, P c → Q c) : s.Every Q :=
  ⟨fun e he => hpq _ (h.entries e he), fun c hc => hpq _ (h.wildcard c hc)⟩

theorem Every.get? {u : String} (h : s.Every P) : ∀ a, s.get? u = some a → P a :=
  fun a ha => h.entries (u, a) (mem_of_lookup ha)

theorem forall_of_some_eq (hc : P c) : ∀ a, some c = some a → P a := by
  intro a ha
  cases ha
  exact hc

theorem every_merge_wildcard {w' : Option Choice} (hjoin : ∀ c d, P c → P d → P (join c d))
    (hw : ∀ c, w = some c → P c) (hw' : ∀ c, w' = some c → P c) :
    ∀ c, Option.merge join w w' = some c → P c := by
  intro c hc
  cases w with
  | none => exact hw' c (by rwa [Option.merge_none_left] at hc)
  | some a =>
    cases w' with
    | none => exact hw c (by rwa [Option.merge_none_right] at hc)
    | some b =>
      rw [Option.merge_some_some, Option.some.injEq] at hc
      rw [← hc]
      exact hjoin a b (hw a rfl) (hw' b rfl)

theorem every_settle (hjoin : ∀ c d, P c → P d → P (join c d)) (hes : ∀ e ∈ es, P e.2)
    (hw : ∀ c, w = some c → P c) : (settle join es w).Every P := by
  refine ⟨?_, by simpa using hw⟩
  cases w with
  | none => exact hes
  | some common =>
    intro e he
    obtain ⟨f, hf, rfl, _⟩ := mem_entries_settle_some.mp he
    exact hjoin _ _ (hes f hf) (hw common rfl)

theorem Every.mergeLevel (hjoin : ∀ c d, P c → P d → P (join c d)) (hs : s.Every P)
    (ht : t.Every P) : (Selection.mergeLevel join s t).Every P := by
  unfold Selection.mergeLevel
  split
  · exact hs
  · exact every_settle hjoin (forall_mem_insertAll hjoin hs.entries ht.entries)
      (every_merge_wildcard hjoin hs.wildcard ht.wildcard)

theorem entriesDepth_le (h : ∀ e ∈ es, e.2.depth ≤ d) : Choice.entriesDepth es ≤ d := by
  induction es with
  | nil => exact Nat.zero_le d
  | cons e es ih =>
    have htail := ih (fun f hf => h f (List.mem_cons_of_mem _ hf))
    have hhead : e.2.depth ≤ d := h e List.mem_cons_self
    obtain ⟨u, c⟩ := e
    exact Nat.max_le.mpr ⟨hhead, htail⟩

theorem wildcardDepth_le (h : ∀ c, w = some c → c.depth ≤ d) : Choice.wildcardDepth w ≤ d := by
  cases w with
  | none => exact Nat.zero_le d
  | some c => exact h c rfl

theorem depth_le_succ_iff : s.depth ≤ d + 1 ↔ s.Every fun c => c.depth ≤ d := by
  constructor
  · intro h
    constructor
    · intro e he
      have := depth_lt_of_mem_entries he
      omega
    · intro c hc
      have := depth_lt_of_wildcard hc
      omega
  · intro h
    obtain ⟨es, w⟩ := s
    have hes : Choice.entriesDepth es ≤ d := entriesDepth_le h.entries
    have hw : Choice.wildcardDepth w ≤ d := wildcardDepth_le h.wildcard
    simp only [depth]
    omega

theorem depth_pos (s : Selection) : 0 < s.depth := by
  obtain ⟨es, w⟩ := s
  simp only [depth]
  omega

theorem depth_joinWith_le {f : Selection → Selection → Selection}
    (h : ∀ s t, s.depth ≤ d → t.depth ≤ d → (f s t).depth ≤ d)
    (hc : c.depth ≤ d) (hc' : c'.depth ≤ d) : (c.joinWith f c').depth ≤ d := by
  cases c with
  | plain => exact hc'
  | nested s =>
    cases c' with
    | plain => exact hc
    | nested t => exact h s t hc hc'

theorem depth_mergeUpTo_le (n : Nat) (hs : s.depth ≤ d) (ht : t.depth ≤ d) :
    (mergeUpTo n s t).depth ≤ d := by
  induction n generalizing d s t with
  | zero => exact hs
  | succ n ih =>
    obtain ⟨k, rfl⟩ : ∃ k, d = k + 1 := Nat.exists_eq_succ_of_ne_zero (by
      have := depth_pos s
      omega)
    rw [depth_le_succ_iff] at hs ht ⊢
    exact hs.mergeLevel (fun _ _ => depth_joinWith_le fun _ _ => ih) ht

theorem depth_merge_le (hs : s.depth ≤ d) (ht : t.depth ≤ d) : (merge s t).depth ≤ d :=
  depth_mergeUpTo_le _ hs ht

section Congruence
variable (hagree : ∀ c d, P c → P d → join c d = join' c d)
variable (hclosed : ∀ c d, P c → P d → P (join c d))
include hagree

theorem insertWith_congr {u : String} (hes : ∀ e ∈ es, P e.2) (hc : P c) :
    insertWith join u c es = insertWith join' u c es := by
  induction es with
  | nil => rfl
  | cons e es ih =>
    have he : P e.2 := hes e List.mem_cons_self
    simp only [insertWith]
    rw [hagree _ _ he hc, ih (fun f hf => hes f (List.mem_cons_of_mem _ hf))]

theorem merge_wildcard_congr {w' : Option Choice} (hw : ∀ c, w = some c → P c)
    (hw' : ∀ c, w' = some c → P c) : Option.merge join w w' = Option.merge join' w w' := by
  cases w with
  | none => rw [Option.merge_none_left, Option.merge_none_left]
  | some a =>
    cases w' with
    | none => rw [Option.merge_none_right, Option.merge_none_right]
    | some b => rw [Option.merge_some_some, Option.merge_some_some, hagree a b (hw a rfl) (hw' b rfl)]

theorem settle_congr (hes : ∀ e ∈ es, P e.2) (hw : ∀ c, w = some c → P c) :
    settle join es w = settle join' es w := by
  cases w with
  | none => rfl
  | some common =>
    have hmap : (es.map fun e => (e.1, join e.2 common)) =
        es.map fun e => (e.1, join' e.2 common) := by
      apply List.map_congr_left
      intro e he
      rw [hagree _ _ (hes e he) (hw common rfl)]
    simp only [settle, hmap]

include hclosed

theorem insertAll_congr (hes : ∀ e ∈ es, P e.2) (hfs : ∀ e ∈ fs, P e.2) :
    insertAll join fs es = insertAll join' fs es := by
  induction fs generalizing es with
  | nil => rfl
  | cons f fs ih =>
    have hf : P f.2 := hfs f List.mem_cons_self
    have hstep : insertWith join f.1 f.2 es = insertWith join' f.1 f.2 es :=
      insertWith_congr hagree hes hf
    calc insertAll join (f :: fs) es
      _ = insertAll join fs (insertWith join f.1 f.2 es) := rfl
      _ = insertAll join' fs (insertWith join f.1 f.2 es) :=
        ih (forall_mem_insertWith hclosed hes hf) (fun e he => hfs e (List.mem_cons_of_mem _ he))
      _ = insertAll join' (f :: fs) es := by
        rw [hstep]
        rfl

theorem mergeLevel_congr (hs : s.Every P) (ht : t.Every P) :
    mergeLevel join s t = mergeLevel join' s t := by
  unfold mergeLevel
  split
  · rfl
  · rw [← insertAll_congr hagree hclosed hs.entries ht.entries,
      ← merge_wildcard_congr hagree hs.wildcard ht.wildcard]
    exact settle_congr hagree (forall_mem_insertAll hclosed hs.entries ht.entries)
      (every_merge_wildcard hclosed hs.wildcard ht.wildcard)

end Congruence

theorem joinWith_congr {f g : Selection → Selection → Selection}
    (h : ∀ s t, s.depth ≤ d → t.depth ≤ d → f s t = g s t)
    (hc : c.depth ≤ d) (hc' : c'.depth ≤ d) : c.joinWith f c' = c.joinWith g c' := by
  cases c with
  | plain => rfl
  | nested s =>
    cases c' with
    | plain => rfl
    | nested t => exact congrArg Choice.nested (h s t hc hc')

theorem mergeUpTo_stable (hs : s.depth ≤ d) (ht : t.depth ≤ d) (hm : d ≤ m) (hn : d ≤ n) :
    mergeUpTo m s t = mergeUpTo n s t := by
  induction d generalizing s t m n with
  | zero =>
    have := depth_pos s
    omega
  | succ d ih =>
    obtain ⟨m, rfl⟩ : ∃ k, m = k + 1 := Nat.exists_eq_succ_of_ne_zero (by omega)
    obtain ⟨n, rfl⟩ : ∃ k, n = k + 1 := Nat.exists_eq_succ_of_ne_zero (by omega)
    rw [depth_le_succ_iff] at hs ht
    apply mergeLevel_congr (P := fun c => c.depth ≤ d) _ _ hs ht
    · intro c c' hc hc'
      exact joinWith_congr (fun a b ha hb => ih ha hb (by omega) (by omega)) hc hc'
    · intro c c' hc hc'
      exact depth_joinWith_le (fun _ _ => depth_mergeUpTo_le m) hc hc'

/-- The recursion of `merge`, with nothing left of the count. -/
theorem merge_eq_mergeLevel (s t : Selection) : merge s t = mergeLevel Choice.join s t := by
  obtain ⟨k, hk⟩ : ∃ k, max s.depth t.depth = k + 1 := Nat.exists_eq_succ_of_ne_zero (by
    have := depth_pos s
    omega)
  have hs : s.Every fun c => c.depth ≤ k := depth_le_succ_iff.mp (by omega)
  have ht : t.Every fun c => c.depth ≤ k := depth_le_succ_iff.mp (by omega)
  unfold merge
  rw [hk]
  apply mergeLevel_congr (P := fun c => c.depth ≤ k) _ _ hs ht
  · intro c c' hc hc'
    apply joinWith_congr _ hc hc'
    intro a b ha hb
    exact mergeUpTo_stable (d := max a.depth b.depth) (by omega) (by omega) (by omega) (by omega)
  · intro c c' hc hc'
    exact depth_joinWith_le (fun _ _ => depth_mergeUpTo_le k) hc hc'

end ResourceQuery.Selection
