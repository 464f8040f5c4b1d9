import ResourceQuery.Proofs.Outline.Derivation
import ResourceQuery.Proofs.Parser.Stream

/-!
# Reading outlines

A grammar reads outlines if its states can be told by two families, one that waits for an item and
one that has just had one, each with the blocks that are open and the items before. What such a
state accepts is said of one leaf, head or mark at a time. From that it follows that the whole
grammar accepts the tokens of derivations and no others, and that it returns what they mean.
-/

namespace ResourceQuery

set_option autoImplicit false

variable {σ A B K α : Type} {g : Grammar σ (List α)} {V : Vocabulary A B K α}
  {close : K → List α → α}

/-- The states of a grammar that wait for an item and those that have just had one. Of the items
the latest stands first, and so does the innermost of the open blocks. -/
structure Grammar.OutlineStates (g : Grammar σ (List α)) (close : K → List α → α) where
  ready : List (K × List α) → List α → σ
  after : List (K × List α) → List α → σ
  start : g.start = ready [] []
  step_after_iff : ∀ {outer xs t s}, g.stepToken (after outer xs) t = .ok s ↔
    (t = .mark .comma ∧ s = ready outer xs) ∨
    ∃ k earlier outer', outer = (k, earlier) :: outer' ∧ t = .mark .closeBrace ∧
      s = after outer' (close k xs.reverse :: earlier)
  finish_after_iff : ∀ {outer xs result}, g.finish (after outer xs) = .ok result ↔
    outer = [] ∧ result = xs.reverse

/-- A state that waits for an item takes a leaf, or a head and the brace behind it. -/
structure Grammar.OutlineReader (g : Grammar σ (List α)) (V : Vocabulary A B K α)
    extends g.OutlineStates V.close where
  ready_iff : ∀ {outer xs ts result}, g.accepts? (ready outer xs) ts = some result ↔
    (∃ a x rest, ts = V.leaf a ++ rest ∧ V.leaf? a = some x ∧
      g.accepts? (after outer (x :: xs)) rest = some result) ∨
    ∃ b k rest, ts = V.head b ++ .mark .openBrace :: rest ∧ V.head? b = some k ∧
      g.accepts? (ready ((k, xs) :: outer) []) rest = some result

variable {outer : List (K × List α)} {k : K} {x : α} {xs us result : List α} {s : σ} {t : Token}
  {ts rest : List Token}

namespace Grammar.OutlineStates

theorem after_iff (S : g.OutlineStates close) :
    g.accepts? (S.after outer xs) ts = some result ↔
      (ts = [] ∧ outer = [] ∧ result = xs.reverse) ∨
      (∃ rest, ts = .mark .comma :: rest ∧ g.accepts? (S.ready outer xs) rest = some result) ∨
      ∃ k earlier outer' rest, outer = (k, earlier) :: outer' ∧ ts = .mark .closeBrace :: rest ∧
        g.accepts? (S.after outer' (close k xs.reverse :: earlier)) rest = some result := by
  cases ts with
  | nil =>
    rw [accepts?_nil_eq_some_iff, S.finish_after_iff]
    constructor
    · intro h
      exact Or.inl ⟨rfl, h⟩
    · rintro (⟨_, h⟩ | ⟨_, hts, _⟩ | ⟨_, _, _, _, _, hts, _⟩)
      · exact h
      · cases hts
      · cases hts
  | cons t ts =>
    rw [accepts?_cons_eq_some_iff]
    constructor
    · rintro ⟨s, hstep, h⟩
      rcases S.step_after_iff.mp hstep with ⟨rfl, rfl⟩ | ⟨k, earlier, outer', houter, rfl, rfl⟩
      · exact Or.inr (Or.inl ⟨ts, rfl, h⟩)
      · exact Or.inr (Or.inr ⟨k, earlier, outer', ts, houter, rfl, h⟩)
    · rintro (⟨hts, _⟩ | ⟨rest, hts, h⟩ | ⟨k, earlier, outer', rest, houter, hts, h⟩)
      · cases hts
      · cases hts
        exact ⟨_, S.step_after_iff.mpr (Or.inl ⟨rfl, rfl⟩), h⟩
      · cases hts
        exact ⟨_, S.step_after_iff.mpr (Or.inr ⟨k, earlier, outer', houter, rfl, rfl⟩), h⟩

/-- A state that opens a block where a brace comes, and otherwise has just had an item. -/
theorem accepts?_of_opens (S : g.OutlineStates close)
    (hopen : g.stepToken s (.mark .openBrace) = .ok (S.ready ((k, xs) :: outer) []))
    (hother : ∀ t, t ≠ .mark .openBrace → g.stepToken s t = g.stepToken (S.after outer (x :: xs)) t)
    (hfinish : g.finish s = g.finish (S.after outer (x :: xs))) :
    g.accepts? s ts = some result ↔
      g.accepts? (S.after outer (x :: xs)) ts = some result ∨
      ∃ rest, ts = .mark .openBrace :: rest ∧
        g.accepts? (S.ready ((k, xs) :: outer) []) rest = some result := by
  cases ts with
  | nil =>
    rw [accepts?_nil, accepts?_nil, hfinish]
    constructor
    · exact Or.inl
    · rintro (h | ⟨_, hts, _⟩)
      · exact h
      · cases hts
  | cons t ts =>
    by_cases ht : t = .mark .openBrace
    · subst ht
      rw [accepts?_cons_ok hopen]
      constructor
      · intro h
        exact Or.inr ⟨ts, rfl, h⟩
      · rintro (h | ⟨rest, hts, h⟩)
        · rcases S.after_iff.mp h with ⟨hts, _⟩ | ⟨_, hts, _⟩ | ⟨_, _, _, _, _, hts, _⟩
          · cases hts
          · cases hts
          · cases hts
        · cases hts
          exact h
    · rw [accepts?_cons_eq_some_iff, accepts?_cons_eq_some_iff, hother t ht]
      constructor
      · exact Or.inl
      · rintro (h | ⟨rest, hts, _⟩)
        · exact h
        · cases hts
          exact absurd rfl ht

end Grammar.OutlineStates

namespace Grammar.OutlineReader

mutual

theorem accepts?_item (R : g.OutlineReader V) : (item : Outline.Item A B) →
    ∀ {x outer xs rest}, item.value? V = some x →
    g.accepts? (R.after outer (x :: xs)) rest = some result →
    g.accepts? (R.ready outer xs) (item.tokens V ++ rest) = some result
  | .leaf a, x, outer, xs, rest, hx, h => by
    rw [Outline.Item.value?] at hx
    rw [Outline.Item.tokens]
    exact R.ready_iff.mpr (Or.inl ⟨a, x, rest, rfl, hx, h⟩)
  | .block b items, x, outer, xs, rest, hx, h => by
    obtain ⟨k, us, hk, hus, rfl⟩ := Outline.Item.value?_block_eq_some_iff.mp hx
    have hclosed : g.accepts? (R.after outer (V.close k (us.reverse ++ []).reverse :: xs)) rest =
        some result := by
      rwa [List.append_nil, List.reverse_reverse]
    have hclose := R.after_iff.mpr (Or.inr (Or.inr ⟨k, xs, outer, rest, rfl, rfl, hclosed⟩))
    have hinner := R.accepts?_outline items hus hclose
    apply R.ready_iff.mpr ∘ Or.inr
    refine ⟨b, k, _, ?_, hk, hinner⟩
    simp only [Outline.Item.tokens, List.append_assoc, List.cons_append, List.nil_append]

theorem accepts?_outline (R : g.OutlineReader V) : (o : Outline A B) →
    ∀ {us outer xs rest}, o.values? V = some us →
    g.accepts? (R.after outer (us.reverse ++ xs)) rest = some result →
    g.accepts? (R.ready outer xs) (o.tokens V ++ rest) = some result
  | .one item, us, outer, xs, rest, hus, h => by
    obtain ⟨x, hx, rfl⟩ := Outline.values?_one_eq_some_iff.mp hus
    rw [Outline.tokens]
    exact R.accepts?_item item hx h
  | .more item later, us, outer, xs, rest, hus, h => by
    obtain ⟨x, ys, hx, hys, rfl⟩ := Outline.values?_more_eq_some_iff.mp hus
    rw [List.reverse_cons, List.append_assoc, List.singleton_append] at h
    have hlater := R.accepts?_outline later hys h
    have hcomma := R.after_iff.mpr (Or.inr (Or.inl ⟨_, rfl, hlater⟩))
    rw [Outline.tokens, List.append_assoc, List.cons_append]
    exact R.accepts?_item item hx hcomma

end

/-- The tokens end the outline whose items are `xs`: they are none, or close the block it is in. -/
def Ends (R : g.OutlineReader V) (outer : List (K × List α)) (xs : List α) (ts : List Token)
    (result : List α) : Prop :=
  (ts = [] ∧ outer = [] ∧ result = xs.reverse) ∨
  ∃ k earlier outer' rest, outer = (k, earlier) :: outer' ∧ ts = .mark .closeBrace :: rest ∧
    g.accepts? (R.after outer' (V.close k xs.reverse :: earlier)) rest = some result

/-- Tokens that are accepted begin with an outline, up to where it ends. -/
theorem exists_outline (R : g.OutlineReader V)
    (h : g.accepts? (R.ready outer xs) ts = some result) :
    ∃ o us rest, ts = Outline.tokens V o ++ rest ∧ o.values? V = some us ∧
      R.Ends outer (us.reverse ++ xs) rest result := by
  -- The induction is on the number of tokens, since a block and what is behind it are both shorter.
  induction hn : ts.length using Nat.strongRecOn generalizing outer xs ts with
  | ind n ih =>
    subst hn
    -- What follows an item goes on with a comma or ends the outline.
    have hgoesOn : ∀ item x rest, ts = Outline.Item.tokens V item ++ rest →
        item.value? V = some x → g.accepts? (R.after outer (x :: xs)) rest = some result →
        ∃ o us rest, ts = Outline.tokens V o ++ rest ∧ o.values? V = some us ∧
          R.Ends outer (us.reverse ++ xs) rest result := by
      intro item x rest hts hx hrest
      have hone : (Outline.one item).values? V = some [x] :=
        Outline.values?_one_eq_some_iff.mpr ⟨x, hx, rfl⟩
      rcases R.after_iff.mp hrest with hend | ⟨later, rfl, hlater⟩ | hclose
      · exact ⟨.one item, [x], rest, hts, hone, Or.inl hend⟩
      · have hlt : later.length < ts.length := by
          rw [hts, List.length_append, List.length_cons]
          omega
        obtain ⟨o, us, rest', rfl, hus, hends⟩ := ih _ hlt hlater rfl
        refine ⟨.more item o, x :: us, rest', ?_, ?_, ?_⟩
        · rw [hts, Outline.tokens, List.append_assoc, List.cons_append]
        · exact Outline.values?_more_eq_some_iff.mpr ⟨x, us, hx, hus, rfl⟩
        · rwa [List.reverse_cons, List.append_assoc, List.singleton_append]
      · exact ⟨.one item, [x], rest, hts, hone, Or.inr hclose⟩
    rcases R.ready_iff.mp h with ⟨a, x, rest, hts, hx, hrest⟩ | ⟨b, k, rest, hts, hk, hrest⟩
    · exact hgoesOn (.leaf a) x rest hts hx hrest
    · have hlt : rest.length < ts.length := by
        rw [hts, List.length_append, List.length_cons]
        omega
      obtain ⟨o, us, _, rfl, hus, hends⟩ := ih _ hlt hrest rfl
      rcases hends with ⟨_, houter, _⟩ | ⟨k', earlier, outer', rest', houter, rfl, hafter⟩
      · cases houter
      · cases houter
        rw [List.append_nil, List.reverse_reverse] at hafter
        refine hgoesOn (.block b o) (V.close k us) rest' ?_ ?_ hafter
        · rw [hts]
          simp only [Outline.Item.tokens, List.append_assoc, List.cons_append, List.nil_append]
        · exact Outline.Item.value?_block_eq_some_iff.mpr ⟨k, us, hk, hus, rfl⟩

theorem accepts?_eq_some_iff (R : g.OutlineReader V) :
    g.accepts? g.start ts = some result ↔
      ∃ o, Outline.tokens V o = ts ∧ o.values? V = some result := by
  rw [R.start]
  constructor
  · intro h
    obtain ⟨o, us, rest, rfl, hus, hends⟩ := R.exists_outline h
    rcases hends with ⟨rfl, _, rfl⟩ | ⟨_, _, _, _, houter, _⟩
    · refine ⟨o, (List.append_nil _).symm, ?_⟩
      rw [List.append_nil, List.reverse_reverse, hus]
    · cases houter
  · rintro ⟨o, rfl, ho⟩
    have hend : result = (result.reverse ++ []).reverse := by
      rw [List.append_nil, List.reverse_reverse]
    have hall := R.accepts?_outline o ho (R.after_iff.mpr (Or.inl ⟨rfl, rfl, hend⟩))
    rwa [List.append_nil] at hall

/-- A text is read as the meaning of the derivation that its tokens have. -/
theorem parse_eq_ok_iff (R : g.OutlineReader V) {forget : σ → σ} (hforget : g.ForgetsPlaces forget)
    {text : String} :
    g.parse text = .ok result ↔
      ∃ ts, tokenize text = .ok ts ∧ ∃ o, Outline.tokens V o = ts ∧ o.values? V = some result := by
  rw [hforget.parse_eq_ok_iff]
  simp only [R.accepts?_eq_some_iff]

/-- What is ensured of leaves and blocks with well-formed tokens holds of all that is read. -/
theorem of_parse (R : g.OutlineReader V) {forget : σ → σ} (hforget : g.ForgetsPlaces forget)
    {P : α → Prop} (hV : V.Ensures P) {text : String} (h : g.parse text = .ok result) :
    result ≠ [] ∧ ∀ x ∈ result, P x := by
  obtain ⟨ts, hts, o, rfl, ho⟩ := (R.parse_eq_ok_iff hforget).mp h
  exact o.of_values? hV (tokenize_eq_ok_iff.mp hts).wellFormed ho

end Grammar.OutlineReader

end ResourceQuery
