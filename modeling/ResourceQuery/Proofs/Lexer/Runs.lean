import ResourceQuery.Proofs.Lexer.Positions

/-!
# Readings one after another

A lexer that goes on after faults never goes back, passes over nothing but blanks between two
readings and stays in its text. Each token takes it further, so no text has more tokens than
characters. A reading that takes it no further, at the end of the text or at a fault of which
nothing is passed over, is made again by all later ones.
-/

namespace ResourceQuery

set_option autoImplicit false

namespace Lexer

variable {l l' : Lexer} {r : Except LexError (Option Token)} {t : Token}

/-- The reading that gives `r` and leads from `l` to `l'` goes over blanks to the place where it
begins, and on from there. -/
structure Advances (l : Lexer) (r : Except LexError (Option Token)) (l' : Lexer) : Prop where
  text_eq : l'.text = l.text
  position_le : l.position ≤ l'.tokenStart
  start_le : l'.tokenStart ≤ l'.position
  le_length : l'.position ≤ l.text.length
  blank : ∀ i (hi : i < l.text.length), l.position ≤ i → i < l'.tokenStart →
    Text.isBlank l.text[i] = true
  token : ∀ t, r = .ok (some t) → l'.tokenStart < l'.position
  ending : r = .ok none ↔ l'.tokenStart = l.text.length
  fault : ∀ e, r = .error e → e.offset = l'.tokenStart

theorem ending_iff_of_next (h : l.next = (r, l')) (hl : l.Placed) :
    r = .ok none ↔ l'.tokenStart = l.text.length := by
  match r with
  | .error e =>
    obtain ⟨_, hlt⟩ := fragment_of_next_error h
    obtain ⟨_, _, _, _, _, _, _, hoffset, rfl⟩ := place_of_next_error h
    rw [hoffset] at hlt
    exact iff_of_false nofun (Nat.ne_of_lt hlt)
  | .ok none =>
    obtain ⟨hend, rfl⟩ := place_of_next_none h
    have hle := List.drop_eq_nil_iff.mp hend
    exact iff_of_true rfl (Nat.le_antisymm (nextStart_le hl.position_le) hle)
  | .ok (some t) =>
    obtain ⟨_, _, hstands⟩ := place_of_next_some h
    have hlt : l'.tokenStart < l'.position := hstands.start_lt
    have hle : l'.position ≤ l.text.length := hstands.stop_le
    exact iff_of_false nofun (by omega)

theorem advances_of_next (h : l.next = (r, l')) (hl : l.Placed) : Advances l r l' := by
  obtain ⟨htext, hstart⟩ := tokenStart_of_next h
  obtain ⟨hle, hlength⟩ := placed_of_next h hl
  refine ⟨htext, position_le_of_next h, hle, htext ▸ hlength, ?_, ?_, ending_iff_of_next h hl, ?_⟩
  · intro i hi hfrom hto
    rw [hstart] at hto
    exact isBlank_of_lt_nextStart hi hfrom hto
  · rintro t rfl
    exact (place_of_next_some h).2.2.start_lt
  · rintro e rfl
    obtain ⟨_, _, _, _, _, _, _, hoffset, rfl⟩ := place_of_next_error h
    exact hoffset

/-- What is read depends on the text and on the place where the reading begins. -/
theorem next_eq_of_nextStart_eq (htext : l'.text = l.text) (hstart : l'.nextStart = l.nextStart) :
    l'.next = l.next := by
  obtain ⟨text, tokenStart, position⟩ := l'
  obtain rfl : text = l.text := htext
  have hskip : (l.text.drop position).dropWhile Text.isBlank =
      (l.text.drop l.position).dropWhile Text.isBlank := by
    have hdrop := congrArg l.text.drop hstart
    rwa [drop_nextStart (l := l), drop_nextStart (l := ⟨l.text, tokenStart, position⟩)] at hdrop
  unfold nextStart ahead at hstart
  simp only [next, slice, hskip, hstart]

/-- A reading that ends where it begins is made again by the next one. -/
theorem next_of_stays (h : l.next = (r, l')) (hstays : l'.position = l'.tokenStart) :
    l'.next = (r, l') := by
  obtain ⟨htext, hstart⟩ := tokenStart_of_next h
  rw [← h]
  apply next_eq_of_nextStart_eq htext
  -- no blank stands where a reading begins
  have hahead : l'.ahead = l.ahead.dropWhile Text.isBlank := by
    rw [ahead, htext, hstays, hstart, drop_nextStart]
  have hnone : l'.ahead.takeWhile Text.isBlank = [] := by
    rw [hahead]
    apply Reading.takeWhile_append_of_stops (w := []) _ Reading.stops_dropWhile
    exact List.forall_mem_nil _
  rw [nextStart, hnone, List.length_nil, Nat.add_zero, hstays, hstart]

theorem skip_add (count more : Nat) (l : Lexer) :
    skip (count + more) l = skip more (skip count l) := by
  induction count generalizing l with
  | zero => rw [Nat.zero_add, skip]
  | succ count ih => rw [Nat.succ_add, skip, skip, ih]

theorem skip_succ (count : Nat) (l : Lexer) : skip (count + 1) l = (skip count l).next.2 :=
  skip_add count 1 l

/-- What is made again once is made again by all later readings. -/
theorem next_skip_of_next_eq (h : l.next = (r, l)) (count : Nat) :
    (skip count l).next = (r, l) := by
  induction count with
  | zero => exact h
  | succ count ih => rw [skip_succ, ih, h]

theorem next_later_of_stays (h : l.next = (r, l')) (hstays : l'.position = l'.tokenStart)
    (count : Nat) : (skip count l).next = (r, l') := by
  cases count with
  | zero => exact h
  | succ count =>
    rw [skip, h]
    exact next_skip_of_next_eq (next_of_stays h hstays) count

/-- The readings from `l` on give the tokens, and the one behind them, with which `tokenize` ends,
gives none. -/
structure Delivers (l : Lexer) (ts : List Token) : Prop where
  tokens : ∀ i (hi : i < ts.length), (skip i l).next.1 = .ok (some ts[i])
  ending : (skip ts.length l).next.1 = .ok none ∧ l.tokenize.1 = .ok ts ∨
    ∃ e, (skip ts.length l).next.1 = .error e ∧ l.tokenize.1 = .error e
  stops : l.tokenize.2 = skip (ts.length + 1) l

theorem delivers_nil (hending : l.next.1 = .ok none ∧ l.tokenize.1 = .ok [] ∨
    ∃ e, l.next.1 = .error e ∧ l.tokenize.1 = .error e) (hstops : l.tokenize.2 = l.next.2) :
    l.Delivers [] := by
  refine ⟨?_, hending, hstops⟩
  intro i hi
  exact absurd hi (Nat.not_lt_zero i)

theorem Delivers.cons {ts : List Token} (h : l.next = (.ok (some t), l')) (hts : l'.Delivers ts) :
    l.Delivers (t :: ts) := by
  have hskip : ∀ count, skip (count + 1) l = skip count l' := by
    intro count
    rw [skip, h]
  refine ⟨?_, ?_, ?_⟩
  · intro i hi
    cases i with
    | zero => rw [skip, h, List.getElem_cons_zero]
    | succ i =>
      rw [hskip, List.getElem_cons_succ]
      exact hts.tokens i (Nat.lt_of_succ_lt_succ hi)
  · rw [List.length_cons, hskip, tokenize_eq_map_of_next_some h]
    rcases hts.ending with ⟨hend, htokens⟩ | ⟨e, herror, htokens⟩
    · exact Or.inl ⟨hend, by rw [htokens]; rfl⟩
    · exact Or.inr ⟨e, herror, by rw [htokens]; rfl⟩
  · have hlater : l.tokenize.2 = l'.tokenize.2 := by
      rw [tokenize]
      split <;> simp_all
    rw [hlater, hts.stops, List.length_cons, hskip]

/-- The tokens before the end of the text, or before the first fault, are no more than the
characters ahead. -/
theorem exists_delivers (hl : l.Placed) :
    ∃ ts, l.Delivers ts ∧ ts.length + l.position ≤ l.text.length := by
  have hnil : ∀ l : Lexer, l.Placed → ([] : List Token).length + l.position ≤ l.text.length := by
    intro l hl
    rw [List.length_nil, Nat.zero_add]
    exact hl.position_le
  induction l using tokenize.induct with
  | case1 l e l' hnext =>
    have hstops : l.tokenize.2 = l.next.2 := by rw [tokenize, hnext]
    have hread : l.next.1 = .error e := by rw [hnext]
    exact ⟨[], delivers_nil (Or.inr ⟨e, hread, tokenize_of_next_error hnext⟩) hstops, hnil l hl⟩
  | case2 l l' hnext =>
    have hstops : l.tokenize.2 = l.next.2 := by rw [tokenize, hnext]
    have hread : l.next.1 = .ok none := by rw [hnext]
    exact ⟨[], delivers_nil (Or.inl ⟨hread, tokenize_of_next_none hnext⟩) hstops, hnil l hl⟩
  | case3 l t l' hnext ih =>
    obtain ⟨ts, hts, hle⟩ := ih (placed_of_next hnext hl)
    have hadvances := advances_of_next hnext hl
    have hlt := hadvances.token t rfl
    have hfrom := hadvances.position_le
    rw [hadvances.text_eq] at hle
    refine ⟨t :: ts, hts.cons hnext, ?_⟩
    rw [List.length_cons]
    omega

end Lexer

/-- Each reading of a run advances in the text. One that ends where it begins, be it at the end or
at a fault, is made again by all later ones. And before the reading with which `tokenize` ends there
are no more tokens than characters. -/
theorem Lexer.run_advances (text : String) :
    let after := fun count => (ofString text).skip count
    (∀ count, (after count).text = text.toList ∧
      Advances (after count) (after count).next.1 (after (count + 1))) ∧
    (∀ count, (after count).next.1 = .ok none →
      ∀ later, count ≤ later → (after later).next.1 = .ok none) ∧
    (∀ count e, (after count).next.1 = .error e →
      (after (count + 1)).position = (after (count + 1)).tokenStart →
        ∀ later, count ≤ later → (after later).next.1 = .error e) ∧
    ∃ ts, (ofString text).Delivers ts ∧ ts.length ≤ text.length := by
  intro after
  have hplaced : ∀ count, (after count).Placed ∧ (after count).text = text.toList := fun count =>
    placed_skip count (placed_ofString text)
  have hnext : ∀ count, (after count).next = ((after count).next.1, after (count + 1)) :=
    fun count => Prod.ext rfl (skip_succ count _).symm
  have hadvances : ∀ count, Advances (after count) (after count).next.1 (after (count + 1)) :=
    fun count => advances_of_next (hnext count) (hplaced count).1
  have hagain : ∀ count, (after (count + 1)).position = (after (count + 1)).tokenStart →
      ∀ later, count ≤ later → (after later).next.1 = (after count).next.1 := by
    intro count hstays later hle
    obtain ⟨more, rfl⟩ := Nat.le.dest hle
    have hlater := next_later_of_stays (hnext count) hstays more
    simp only [after, skip_add] at hlater ⊢
    rw [hlater]
  refine ⟨fun count => ⟨(hplaced count).2, hadvances count⟩, ?_, ?_, ?_⟩
  · intro count hend later hle
    have hstart := (hadvances count).ending.mp hend
    have hfrom := (hadvances count).start_le
    have hto := (hadvances count).le_length
    rw [hagain count (by omega) later hle, hend]
  · intro count e herror hstays later hle
    rw [hagain count hstays later hle, herror]
  · obtain ⟨ts, hts, hle⟩ := exists_delivers (placed_ofString text)
    have hlength : (ofString text).text.length = text.length := String.length_toList
    exact ⟨ts, hts, by omega⟩

/-- A malformed tag is passed over, and then the run stays at a character that begins no token. -/
theorem Lexer.run_advances_to_fault :
    let after := fun count => (ofString "a @-b !c").skip count
    (after 1).next.1 = .error ⟨.malformedTag "-b", "@-b", 2⟩ ∧
    ∀ later, 2 ≤ later → (after later).next.1 = .error ⟨.loneBang, "!", 6⟩ := by
  intro after
  have htag : (after 1).next.1 = .error ⟨.malformedTag "-b", "@-b", 2⟩ := by decide +kernel
  have hbang : (after 2).next.1 = .error ⟨.loneBang, "!", 6⟩ := by decide +kernel
  have hstays : (after 3).position = (after 3).tokenStart := by decide +kernel
  exact ⟨htag, (run_advances _).2.2.1 2 _ hbang hstays⟩

end ResourceQuery
