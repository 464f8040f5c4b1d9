import ResourceQuery.Proofs.Selection.Canonical

/-!
# What a merge shows

Along every path, the merge of two canonical selections shows the greater of the two extents,
and it is canonical again. So whatever holds of greatest extents holds of merges: the operands
may come in any order and grouping, and repeating one or adding the empty selection changes
nothing. The extents are followed one level at a time, for any join that is right on the
choices of that level, and the induction is on the number of levels.
-/

namespace ResourceQuery.Selection

set_option autoImplicit false

variable {join : Choice → Choice → Choice} {P : Choice → Prop} {es : List (String × Choice)}
  {r s t : Selection} {c d w : Option Choice} {u : String} {n : Nat}

/-- Of two choices that satisfy `P`, `join` shows at every path the greater extent. -/
structure JoinsOn (P : Choice → Prop) (join : Choice → Choice → Choice) : Prop where
  closed : ∀ c d, P c → P d → P (join c d)
  extent : ∀ c d, P c → P d → extent (some (join c d)) = extent (some c) ⊔ extent (some d)

namespace JoinsOn
variable (hj : JoinsOn P join)
include hj

theorem extent_merge (hc : ∀ a, c = some a → P a) (hd : ∀ a, d = some a → P a) :
    Selection.extent (Option.merge join c d) = Selection.extent c ⊔ Selection.extent d := by
  cases c with
  | none => rw [Option.merge_none_left, extent_none, bot_sup_eq]
  | some a =>
    cases d with
    | none => rw [Option.merge_none_right, extent_none, sup_bot_eq]
    | some b =>
      rw [Option.merge_some_some]
      exact hj.extent a b (hc a rfl) (hd b rfl)

theorem extent_settle (h : Ascending es) (hes : ∀ e ∈ es, P e.2) (hw : ∀ a, w = some a → P a) :
    Selection.extent ((settle join es w).select u) =
      Selection.extent (es.lookup u) ⊔ Selection.extent w := by
  cases w with
  | none =>
    rw [extent_none, sup_bot_eq]
    exact congrArg Selection.extent Option.or_none
  | some common =>
    cases hl : es.lookup u with
    | none =>
      rw [select_of_get?_none (get?_settle_of_unlisted hl), wildcard_settle, extent_none,
        bot_sup_eq]
    | some a =>
      have ha : P a := hes (u, a) (mem_of_lookup hl)
      rw [← hj.extent a common ha (hw common rfl)]
      by_cases heq : join a common = common
      · rw [select_of_get?_none (get?_settle_of_eq h hl heq), wildcard_settle, heq]
      · rw [select_of_get?_some (get?_settle_of_ne h hl heq)]

theorem settled_settle (hes : ∀ e ∈ es, P e.2) (hw : ∀ a, w = some a → P a) :
    (settle join es w).Settled := by
  cases w with
  | none =>
    constructor
    · intro e _
      rw [wildcard_settle, extent_none]
      exact bot_le
    · intro e _
      rw [wildcard_settle]
      exact Option.some_ne_none e.2
  | some common =>
    constructor
    · intro e he
      obtain ⟨f, hf, rfl, _⟩ := mem_entries_settle_some.mp he
      rw [wildcard_settle, hj.extent f.2 common (hes f hf) (hw common rfl)]
      exact le_sup_right
    · intro e he
      obtain ⟨f, _, rfl, hne⟩ := mem_entries_settle_some.mp he
      rw [wildcard_settle]
      exact fun heq => hne (Option.some.inj heq)

theorem canonical_settle (hP : ∀ a, P a → CanonicalChoice a) (h : Ascending es)
    (hes : ∀ e ∈ es, P e.2) (hw : ∀ a, w = some a → P a) : (settle join es w).Canonical := by
  refine canonical_iff.mpr ⟨⟨h.settle w, ?_⟩, hj.settled_settle hes hw⟩
  exact (every_settle hj.closed hes hw).imp hP

theorem canonical_mergeLevel (hP : ∀ a, P a → CanonicalChoice a) (hs : s.Canonical)
    (hsP : s.Every P) (htP : t.Every P) : (mergeLevel join s t).Canonical := by
  unfold mergeLevel
  split
  · exact hs
  · exact hj.canonical_settle hP hs.orderly.ascending.insertAll
      (forall_mem_insertAll hj.closed hsP.entries htP.entries)
      (every_merge_wildcard hj.closed hsP.wildcard htP.wildcard)

theorem extent_mergeLevel (hs : s.Canonical) (ht : t.Canonical) (hsP : s.Every P)
    (htP : t.Every P) : Selection.extent ((mergeLevel join s t).select u) =
      Selection.extent (s.select u) ⊔ Selection.extent (t.select u) := by
  unfold mergeLevel
  split
  · rename_i heq
    rw [heq, sup_idem]
  · have hlookup : (insertAll join t.entries s.entries).lookup u =
        Option.merge join (s.get? u) (t.get? u) :=
      lookup_insertAll hs.orderly.ascending ht.orderly.ascending
    rw [hj.extent_settle hs.orderly.ascending.insertAll
        (forall_mem_insertAll hj.closed hsP.entries htP.entries)
        (every_merge_wildcard hj.closed hsP.wildcard htP.wildcard), hlookup,
      hj.extent_merge hsP.get? htP.get?, hj.extent_merge hsP.wildcard htP.wildcard,
      hs.settled.extent_select, ht.settled.extent_select]
    exact sup_sup_sup_comm ..

end JoinsOn

/-- The choices that the levels below one of `n + 1` levels hold. -/
def CanonicalUpTo (n : Nat) (a : Choice) : Prop := CanonicalChoice a ∧ a.depth ≤ n

theorem Canonical.every_upTo (hs : s.Canonical) (h : s.depth ≤ n + 1) :
    s.Every (CanonicalUpTo n) := by
  have hdepth := depth_le_succ_iff.mp h
  exact ⟨fun e he => ⟨hs.orderly.choices.entries e he, hdepth.entries e he⟩,
    fun a ha => ⟨hs.orderly.choices.wildcard a ha, hdepth.wildcard a ha⟩⟩

/-- The merge of two selections is canonical and shows of every property the greater extent. -/
structure MergesWell (s t : Selection) : Prop where
  canonical : (merge s t).Canonical
  extent : ∀ u, extent ((merge s t).select u) = extent (s.select u) ⊔ extent (t.select u)

theorem joinsOn_upTo (h : ∀ s t : Selection, s.Canonical → t.Canonical → s.depth ≤ n →
    t.depth ≤ n → MergesWell s t) : JoinsOn (CanonicalUpTo n) Choice.join := by
  constructor
  · rintro a b ⟨ha, hda⟩ ⟨hb, hdb⟩
    cases a with
    | plain => exact ⟨hb, hdb⟩
    | nested s =>
      cases b with
      | plain => exact ⟨ha, hda⟩
      | nested t =>
        have hwell := h s t (ha s rfl) (hb t rfl) hda hdb
        exact ⟨canonicalChoice_nested hwell.canonical, depth_merge_le hda hdb⟩
  · rintro a b ⟨ha, hda⟩ ⟨hb, hdb⟩
    cases a with
    | plain => exact (sup_eq_right.mpr (extent_plain_le rfl)).symm
    | nested s =>
      cases b with
      | plain => exact (sup_eq_left.mpr (extent_plain_le rfl)).symm
      | nested t =>
        have hwell := h s t (ha s rfl) (hb t rfl) hda hdb
        funext path
        cases path with
        | nil => exact (sup_idem _).symm
        | cons u path => exact congrFun (hwell.extent u) path

theorem mergesWell_upTo (n : Nat) : ∀ s t : Selection, s.Canonical → t.Canonical →
    s.depth ≤ n → t.depth ≤ n → MergesWell s t := by
  induction n with
  | zero =>
    intro s t _ _ hs
    have := depth_pos s
    omega
  | succ n ih =>
    intro s t hs ht hds hdt
    have hj : JoinsOn (CanonicalUpTo n) Choice.join := joinsOn_upTo ih
    have hsP := hs.every_upTo hds
    have htP := ht.every_upTo hdt
    constructor
    · rw [merge_eq_mergeLevel]
      exact hj.canonical_mergeLevel (fun _ ha => ha.1) hs hsP htP
    · intro u
      rw [merge_eq_mergeLevel]
      exact hj.extent_mergeLevel hs ht hsP htP

theorem Canonical.mergesWell (hs : s.Canonical) (ht : t.Canonical) : MergesWell s t :=
  mergesWell_upTo (max s.depth t.depth) s t hs ht (Nat.le_max_left ..) (Nat.le_max_right ..)

theorem Canonical.merge (hs : s.Canonical) (ht : t.Canonical) : (merge s t).Canonical :=
  (hs.mergesWell ht).canonical

theorem extent_select_merge (hs : s.Canonical) (ht : t.Canonical) (u : String) :
    extent ((merge s t).select u) = extent (s.select u) ⊔ extent (t.select u) :=
  (hs.mergesWell ht).extent u

theorem joinsOn_canonical : JoinsOn CanonicalChoice Choice.join := by
  constructor
  · intro a b ha hb
    have hj := joinsOn_upTo (mergesWell_upTo (max a.depth b.depth))
    exact (hj.closed a b ⟨ha, Nat.le_max_left ..⟩ ⟨hb, Nat.le_max_right ..⟩).1
  · intro a b ha hb
    have hj := joinsOn_upTo (mergesWell_upTo (max a.depth b.depth))
    exact hj.extent a b ⟨ha, Nat.le_max_left ..⟩ ⟨hb, Nat.le_max_right ..⟩

theorem Canonical.merge_comm (hs : s.Canonical) (ht : t.Canonical) :
    Selection.merge s t = Selection.merge t s := by
  apply (hs.merge ht).eq_of_extent (ht.merge hs)
  intro u
  rw [extent_select_merge hs ht, extent_select_merge ht hs, sup_comm]

theorem Canonical.merge_assoc (hr : r.Canonical) (hs : s.Canonical) (ht : t.Canonical) :
    Selection.merge (Selection.merge r s) t = Selection.merge r (Selection.merge s t) := by
  apply ((hr.merge hs).merge ht).eq_of_extent (hr.merge (hs.merge ht))
  intro u
  rw [extent_select_merge (hr.merge hs) ht, extent_select_merge hr hs,
    extent_select_merge hr (hs.merge ht), extent_select_merge hs ht, sup_assoc]

/-- Nothing is merged into itself, canonical or not. -/
theorem merge_self (s : Selection) : merge s s = s := by
  rw [merge_eq_mergeLevel, mergeLevel, if_pos rfl]

theorem Canonical.merge_empty (hs : s.Canonical) : Selection.merge s empty = s := by
  apply (hs.merge canonical_empty).eq_of_extent hs
  intro u
  have hempty : extent (empty.select u) = ⊥ := extent_none
  rw [extent_select_merge hs canonical_empty, hempty, sup_bot_eq]

end ResourceQuery.Selection
