import ResourceQuery.Proofs.Lexer.Spans

/-!
# The places of a lexer that goes on after faults

Whether a reading gives a token, a fault or the end, it begins no earlier than where the one
before it ended, and it ends inside of the text. A fault lies where its reading begins, and the
text that it concerns is not empty.
-/

namespace ResourceQuery

set_option autoImplicit false

variable {c : Char} {rest pfx : List Char} {t : Token} {fault : LexicalFault}
  {width n start stop : Nat} {l l' : Lexer} {e : LexError} {r : Except LexError (Option Token)}

namespace Reading

theorem width_of_ofLocal (h : ofLocal pfx rest = .fault fault width n) :
    width = pfx.length + 1 ∧ n = pfx.length + 1 := by
  unfold ofLocal at h
  simp only at h
  split at h <;> cases h
  exact ⟨rfl, rfl⟩

theorem width_le_of_ofWord {cs : List Char} (h : ofWord cs = .fault fault width n) :
    0 < width ∧ width ≤ cs.length ∧ n ≤ width := by
  unfold ofWord at h
  simp only at h
  split at h
  · rename_i after hdrop
    obtain ⟨hwidth, hn⟩ := width_of_ofLocal h
    have hlength := congrArg List.length hdrop
    rw [List.length_drop, List.length_cons] at hlength
    omega
  · cases h

/-- What a fault concerns is not empty, and both it and what is passed over are in the text. -/
theorem width_le_of_ofChars (h : ofChars c rest = .fault fault width n) :
    0 < width ∧ width ≤ (c :: rest).length ∧ n ≤ width := by
  rw [List.length_cons]
  unfold ofChars at h
  split at h
  · cases h
  · split at h
    · unfold ofBang at h
      split at h <;> cases h
      omega
    · unfold ofGreater at h
      split at h <;> cases h
    · unfold ofLess at h
      split at h
      · cases h
      · cases h
        rw [List.length_cons]
        omega
      · split at h <;> cases h
    · unfold ofCaret at h
      split at h <;> cases h
      omega
    · unfold ofAt at h
      have hle := (List.takeWhile_prefix (p := isTagChar) (l := rest)).length_le
      simp only at h
      split at h <;> cases h
      omega
    · unfold ofQuote at h
      split at h <;> cases h
      omega
    · obtain ⟨hwidth, hn⟩ := width_of_ofLocal h
      have hnil : ([] : List Char).length = 0 := rfl
      omega
    · split at h
      · cases h
      · split at h
        · exact width_le_of_ofWord h
        · cases h
          omega

end Reading

namespace Lexer

open Reading

theorem toList_slice_prefix : (l.slice start stop).toList <+: l.text.drop start := by
  rw [slice, String.toList_ofList, List.drop_take]
  exact List.take_prefix _ _

theorem slice_eq_empty_iff : l.slice start stop = "" ↔ stop ≤ start ∨ l.text.length ≤ start := by
  rw [slice, String.ofList_eq_empty_iff, List.drop_eq_nil_iff, List.length_take]
  omega

theorem place_of_next_error (h : l.next = (.error e, l')) :
    ∃ c rest width n, l.text.drop l.nextStart = c :: rest ∧
      ofChars c rest = .fault e.fault width n ∧
      e.fragment = l.slice l.nextStart (l.nextStart + width) ∧ e.offset = l.nextStart ∧
      l' = ⟨l.text, l.nextStart, l.nextStart + n⟩ := by
  unfold next at h
  simp only at h
  split at h
  · cases h
  · rename_i c rest hskip
    split at h
    · cases h
    · rename_i width n hread
      cases h
      exact ⟨c, rest, width, n, drop_nextStart.trans hskip, hread, rfl, rfl, rfl⟩

/-- The text of a fault begins in the text. -/
theorem fragment_of_next_error (h : l.next = (.error e, l')) :
    e.fragment ≠ "" ∧ e.offset < l.text.length := by
  obtain ⟨c, rest, width, n, hdrop, hread, hfragment, hoffset, _⟩ := place_of_next_error h
  obtain ⟨hwidth, _⟩ := width_le_of_ofChars hread
  have hlt : l.nextStart < l.text.length := by
    have hlength := congrArg List.length hdrop
    rw [List.length_drop, List.length_cons] at hlength
    omega
  rw [hfragment, hoffset, ne_eq, slice_eq_empty_iff]
  omega

/-- The lexer stands in its text, behind the place where its latest reading began. -/
structure Placed (l : Lexer) : Prop where
  start_le : l.tokenStart ≤ l.position
  position_le : l.position ≤ l.text.length

theorem Placed.tokenStart_le (h : l.Placed) : l.tokenStart ≤ l.text.length :=
  Nat.le_trans h.start_le h.position_le

theorem placed_ofString (text : String) : (ofString text).Placed := ⟨Nat.le_refl _, Nat.zero_le _⟩

theorem tokenStart_of_next (h : l.next = (r, l')) :
    l'.text = l.text ∧ l'.tokenStart = l.nextStart := by
  match r with
  | .error e =>
    obtain ⟨_, _, _, _, _, _, _, _, rfl⟩ := place_of_next_error h
    exact ⟨rfl, rfl⟩
  | .ok none =>
    obtain ⟨_, rfl⟩ := place_of_next_none h
    exact ⟨rfl, rfl⟩
  | .ok (some t) =>
    obtain ⟨htext, hstart, _⟩ := place_of_next_some h
    exact ⟨htext, hstart⟩

theorem position_le_of_next (h : l.next = (r, l')) : l.position ≤ l'.tokenStart := by
  rw [(tokenStart_of_next h).2]
  exact position_le_nextStart

theorem tokenStart_le_of_next (h : l.next = (r, l')) (hl : l.Placed) :
    l.tokenStart ≤ l'.tokenStart :=
  Nat.le_trans hl.start_le (position_le_of_next h)

theorem placed_of_next (h : l.next = (r, l')) (hl : l.Placed) : l'.Placed := by
  match r with
  | .error e =>
    obtain ⟨c, rest, width, n, hdrop, hread, _, _, rfl⟩ := place_of_next_error h
    obtain ⟨_, hwidth, hn⟩ := width_le_of_ofChars hread
    have hlength := congrArg List.length hdrop
    rw [List.length_drop] at hlength
    have hle := nextStart_le hl.position_le
    refine ⟨Nat.le_add_right _ _, ?_⟩
    simp only
    omega
  | .ok none =>
    obtain ⟨_, rfl⟩ := place_of_next_none h
    exact ⟨Nat.le_refl _, nextStart_le hl.position_le⟩
  | .ok (some t) =>
    obtain ⟨htext, _, hstands⟩ := place_of_next_some h
    exact ⟨Nat.le_of_lt hstands.start_lt, htext ▸ hstands.stop_le⟩

/-- The lexer after some readings, whatever each of them gave. -/
def skip : Nat → Lexer → Lexer
  | 0, l => l
  | count + 1, l => skip count l.next.2

theorem placed_skip (count : Nat) (hl : l.Placed) :
    (skip count l).Placed ∧ (skip count l).text = l.text := by
  induction count generalizing l with
  | zero => exact ⟨hl, rfl⟩
  | succ count ih =>
    have hnext : l.next = (l.next.1, l.next.2) := rfl
    obtain ⟨hplaced, htext⟩ := ih (placed_of_next hnext hl)
    exact ⟨hplaced, htext.trans (tokenStart_of_next hnext).1⟩

end Lexer

end ResourceQuery
