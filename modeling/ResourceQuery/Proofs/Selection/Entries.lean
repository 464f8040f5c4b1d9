import Mathlib.Data.String.Basic
import ResourceQuery.Selection.Merge

/-!
# Listed choices

The entries of a level stand in ascending order of their URIs. Such a list is determined by
what is looked up in it, and each step of a merge is an equation on look-ups: inserting joins
the choices of one URI, inserting all joins the choices of every URI, and settling joins the
wildcard to each and drops the entries that then say no more than the wildcard.
-/

namespace ResourceQuery.Selection

set_option autoImplicit false

variable {join : Choice → Choice → Choice} {es fs : List (String × Choice)}
  {u v : String} {c d common : Choice} {P : Choice → Prop}

/-- Each URI stands before the next, so no URI is listed twice. -/
def Ascending (es : List (String × Choice)) : Prop := es.Pairwise fun e f => e.1 < f.1

theorem Ascending.nil : Ascending [] := List.Pairwise.nil

theorem Ascending.tail {e : String × Choice} (h : Ascending (e :: es)) : Ascending es :=
  (List.pairwise_cons.mp h).2

theorem Ascending.head_lt {e f : String × Choice} (h : Ascending (e :: es)) (hf : f ∈ es) :
    e.1 < f.1 := (List.pairwise_cons.mp h).1 f hf

theorem Ascending.lookup_of_lt {e : String × Choice} (h : Ascending (e :: es)) (hu : u < e.1) :
    (e :: es).lookup u = none := by
  apply List.lookup_eq_none_iff.mpr
  intro f hf
  rw [bne_iff_ne]
  rcases List.mem_cons.mp hf with rfl | hf
  · exact ne_of_lt hu
  · exact ne_of_lt (lt_trans hu (h.head_lt hf))

theorem Ascending.lookup_head {e : String × Choice} (h : Ascending (e :: es)) :
    es.lookup e.1 = none := by
  apply List.lookup_eq_none_iff.mpr
  intro f hf
  rw [bne_iff_ne]
  exact ne_of_lt (h.head_lt hf)

theorem mem_of_lookup (h : es.lookup u = some c) : (u, c) ∈ es := by
  obtain ⟨before, after, rfl, _⟩ := List.lookup_eq_some_iff.mp h
  exact List.mem_append_right _ List.mem_cons_self

theorem Ascending.lookup_of_mem (h : Ascending es) (hm : (u, c) ∈ es) :
    es.lookup u = some c := by
  induction es with
  | nil => cases hm
  | cons e rest ih =>
    rcases List.mem_cons.mp hm with rfl | hm
    · exact List.lookup_cons_self
    · have hne : u ≠ e.1 := (ne_of_lt (h.head_lt hm)).symm
      rw [List.lookup_cons, beq_false_of_ne hne]
      exact ih h.tail hm

/-- A list in ascending order is what is looked up in it. -/
theorem Ascending.eq_of_lookup (hes : Ascending es) (hfs : Ascending fs)
    (h : ∀ u, es.lookup u = fs.lookup u) : es = fs := by
  induction es generalizing fs with
  | nil =>
    cases fs with
    | nil => rfl
    | cons f fs =>
      have hf := h f.1
      rw [List.lookup_nil, List.lookup_cons_self] at hf
      cases hf
  | cons e es ih =>
    cases fs with
    | nil =>
      have he := h e.1
      rw [List.lookup_nil, List.lookup_cons_self] at he
      cases he
    | cons f fs =>
      have hkey : e.1 = f.1 := by
        rcases lt_trichotomy e.1 f.1 with hlt | heq | hgt
        · have := h e.1
          rw [hfs.lookup_of_lt hlt, List.lookup_cons_self] at this
          cases this
        · exact heq
        · have := h f.1
          rw [hes.lookup_of_lt hgt, List.lookup_cons_self] at this
          cases this
      have hhead := h e.1
      rw [List.lookup_cons_self, hkey, List.lookup_cons_self] at hhead
      have hchoice : e.2 = f.2 := Option.some.inj hhead
      have htail : es = fs := by
        apply ih hes.tail hfs.tail
        intro u
        by_cases hu : u = e.1
        · rw [hu, hes.lookup_head, hkey, hfs.lookup_head]
        · have hw := h u
          rwa [List.lookup_cons, List.lookup_cons, ← hkey, beq_false_of_ne hu] at hw
      rw [Prod.ext hkey hchoice, htail]

theorem key_mem_insertWith {e : String × Choice} (h : e ∈ insertWith join u c es) :
    e.1 = u ∨ ∃ f ∈ es, f.1 = e.1 := by
  induction es with
  | nil =>
    rw [List.mem_singleton.mp h]
    exact Or.inl rfl
  | cons f rest ih =>
    simp only [insertWith] at h
    split at h
    · rcases List.mem_cons.mp h with rfl | h
      · exact Or.inl rfl
      · exact Or.inr ⟨e, h, rfl⟩
    split at h
    · rcases List.mem_cons.mp h with rfl | h
      · exact Or.inr ⟨f, List.mem_cons_self, rfl⟩
      · exact Or.inr ⟨e, List.mem_cons_of_mem _ h, rfl⟩
    · rcases List.mem_cons.mp h with rfl | h
      · exact Or.inr ⟨f, List.mem_cons_self, rfl⟩
      · rcases ih h with hu | ⟨g, hg, hge⟩
        · exact Or.inl hu
        · exact Or.inr ⟨g, List.mem_cons_of_mem _ hg, hge⟩

theorem Ascending.insertWith (h : Ascending es) :
    Ascending (Selection.insertWith join u c es) := by
  induction es with
  | nil => exact List.pairwise_singleton ..
  | cons f rest ih =>
    simp only [Selection.insertWith]
    split
    · rename_i hlt
      refine List.pairwise_cons.mpr ⟨fun g hg => ?_, h⟩
      rcases List.mem_cons.mp hg with rfl | hg
      · exact hlt
      · exact lt_trans hlt (h.head_lt hg)
    split
    · exact List.pairwise_cons.mpr ⟨fun g hg => h.head_lt hg, h.tail⟩
    · rename_i hlt hne
      refine List.pairwise_cons.mpr ⟨fun g hg => ?_, ih h.tail⟩
      rcases key_mem_insertWith hg with hu | ⟨k, hk, hkg⟩
      · rw [hu]
        exact lt_of_le_of_ne (not_lt.mp hlt) (Ne.symm hne)
      · rw [← hkg]
        exact h.head_lt hk

theorem lookup_insertWith (h : Ascending es) :
    (insertWith join u c es).lookup v =
      if v = u then Option.merge join (es.lookup u) (some c) else es.lookup v := by
  induction es with
  | nil => by_cases hv : v = u <;> simp [insertWith, hv]
  | cons f rest ih =>
    obtain ⟨w, d⟩ := f
    simp only [insertWith]
    split
    · rename_i hlt
      rw [h.lookup_of_lt hlt]
      by_cases hv : v = u
      · simp [hv]
      · rw [List.lookup_cons, beq_false_of_ne hv, if_neg hv]
    split
    · rename_i heq
      subst heq
      by_cases hv : v = u
      · simp [hv]
      · simp [List.lookup_cons, beq_false_of_ne hv, hv]
    · rename_i hne
      rw [List.lookup_cons, ih h.tail]
      by_cases hv : v = u
      · rw [if_pos hv, if_pos hv, hv, List.lookup_cons, beq_false_of_ne hne]
      · rw [if_neg hv, if_neg hv, List.lookup_cons]

theorem forall_mem_insertWith (hjoin : ∀ c d, P c → P d → P (join c d))
    (hes : ∀ e ∈ es, P e.2) (hc : P c) : ∀ e ∈ insertWith join u c es, P e.2 := by
  induction es with
  | nil =>
    intro e he
    rw [List.mem_singleton.mp he]
    exact hc
  | cons f rest ih =>
    have hrest : ∀ e ∈ rest, P e.2 := fun e he => hes e (List.mem_cons_of_mem _ he)
    have hf : P f.2 := hes f List.mem_cons_self
    intro e he
    simp only [insertWith] at he
    split at he
    · rcases List.mem_cons.mp he with rfl | he
      · exact hc
      · exact hes e he
    split at he
    · rcases List.mem_cons.mp he with rfl | he
      · exact hjoin _ _ hf hc
      · exact hrest e he
    · rcases List.mem_cons.mp he with rfl | he
      · exact hf
      · exact ih hrest e he

theorem Ascending.insertAll (h : Ascending es) : Ascending (Selection.insertAll join fs es) := by
  induction fs generalizing es with
  | nil => exact h
  | cons f fs ih => exact ih h.insertWith

theorem lookup_insertAll (hes : Ascending es) (hfs : Ascending fs) :
    (insertAll join fs es).lookup v = Option.merge join (es.lookup v) (fs.lookup v) := by
  induction fs generalizing es with
  | nil => simp [insertAll]
  | cons f fs ih =>
    have hstep : (insertAll join (f :: fs) es).lookup v =
        Option.merge join ((insertWith join f.1 f.2 es).lookup v) (fs.lookup v) :=
      ih hes.insertWith hfs.tail
    rw [hstep, lookup_insertWith hes]
    by_cases hv : v = f.1
    · rw [if_pos hv, hv, hfs.lookup_head, List.lookup_cons_self, Option.merge_none_right]
    · rw [if_neg hv, List.lookup_cons, beq_false_of_ne hv]

theorem forall_mem_insertAll (hjoin : ∀ c d, P c → P d → P (join c d))
    (hes : ∀ e ∈ es, P e.2) (hfs : ∀ e ∈ fs, P e.2) : ∀ e ∈ insertAll join fs es, P e.2 := by
  induction fs generalizing es with
  | nil => exact hes
  | cons f fs ih =>
    exact ih (forall_mem_insertWith hjoin hes (hfs f List.mem_cons_self))
      (fun e he => hfs e (List.mem_cons_of_mem _ he))

@[simp] theorem wildcard_settle (w : Option Choice) : (settle join es w).wildcard = w := by
  cases w <;> rfl

theorem entries_settle_some : (settle join es (some common)).entries =
    (es.map fun e => (e.1, join e.2 common)).filter fun e => e.2 ≠ common := rfl

theorem mem_entries_settle_some {e : String × Choice} :
    e ∈ (settle join es (some common)).entries ↔
      ∃ f ∈ es, e = (f.1, join f.2 common) ∧ join f.2 common ≠ common := by
  simp only [entries_settle_some, List.mem_filter, List.mem_map, decide_eq_true_eq]
  constructor
  · rintro ⟨⟨f, hf, rfl⟩, hne⟩
    exact ⟨f, hf, rfl, hne⟩
  · rintro ⟨f, hf, rfl, hne⟩
    exact ⟨⟨f, hf, rfl⟩, hne⟩

theorem Ascending.settle (h : Ascending es) (w : Option Choice) :
    Ascending (Selection.settle join es w).entries := by
  cases w with
  | none => exact h
  | some common =>
    apply List.Pairwise.filter
    exact List.pairwise_map.mpr h

theorem get?_settle_of_unlisted (hl : es.lookup v = none) :
    (settle join es (some common)).get? v = none := by
  apply List.lookup_eq_none_iff.mpr
  intro e he
  obtain ⟨f, hf, rfl, _⟩ := mem_entries_settle_some.mp he
  exact List.lookup_eq_none_iff.mp hl f hf

theorem get?_settle_of_eq (h : Ascending es) (hl : es.lookup v = some d)
    (hd : join d common = common) : (settle join es (some common)).get? v = none := by
  apply List.lookup_eq_none_iff.mpr
  intro e he
  obtain ⟨f, hf, rfl, hne⟩ := mem_entries_settle_some.mp he
  rw [bne_iff_ne]
  rintro rfl
  have hfd : es.lookup f.1 = some f.2 := h.lookup_of_mem hf
  rw [hl, Option.some.injEq] at hfd
  exact hne (hfd ▸ hd)

theorem get?_settle_of_ne (h : Ascending es) (hl : es.lookup v = some d)
    (hd : join d common ≠ common) :
    (settle join es (some common)).get? v = some (join d common) := by
  apply (h.settle (some common)).lookup_of_mem
  exact mem_entries_settle_some.mpr ⟨(v, d), mem_of_lookup hl, rfl, hd⟩

end ResourceQuery.Selection
