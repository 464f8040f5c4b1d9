import ResourceQuery.Proofs.SortKey.Acceptance
import ResourceQuery.Proofs.Term.Writable

/-!
# Order clauses that can be written

A key can be written if its names can be written with their own prefixes and no group in it is
empty, at any depth. These are the keys that outlines with well-formed tokens mean, so all that the
parser returns. Each name among the tokens of an outline has a direction: a sign stands before it,
or a group opens behind it.
-/

namespace ResourceQuery.SortKey

set_option autoImplicit false

open Term (WrittenName)

variable {names : PrefixMap} {result : List SortKey} {ts us : List Token}

inductive Writable (names : PrefixMap) : SortKey → Prop where
  | key {direction : Direction} {property : QualifiedName} (hproperty : property.Writable names) :
    Writable names (.key direction property)
  | group {direction : Direction} {property : QualifiedName} {keys : List SortKey}
    (hproperty : property.Writable names) (hne : keys ≠ [])
    (hkeys : ∀ k ∈ keys, Writable names k) : Writable names (.group direction property keys)

structure WritableClause (names : PrefixMap) (keys : List SortKey) : Prop where
  nonempty : keys ≠ []
  keys : ∀ k ∈ keys, k.Writable names

/-- No group in the key is empty. -/
inductive Filled : SortKey → Prop where
  | key {direction : Direction} {property : QualifiedName} : Filled (.key direction property)
  | group {direction : Direction} {property : QualifiedName} {keys : List SortKey}
    (hne : keys ≠ []) (hkeys : ∀ k ∈ keys, Filled k) : Filled (.group direction property keys)

theorem Writable.filled {k : SortKey} (h : k.Writable names) : k.Filled := by
  induction h with
  | key => exact .key
  | group _ hne _ ih => exact .group hne ih

theorem SignedName.wellFormed_name {s : SignedName} (h : ∀ t ∈ s.tokens, t.WellFormed) :
    s.name.token.WellFormed :=
  h _ (List.mem_cons_of_mem _ (List.mem_singleton_self _))

theorem GroupHead.wellFormed_name {h : GroupHead} (hh : ∀ t ∈ h.tokens, t.WellFormed) :
    h.name.token.WellFormed := by
  cases h with
  | signed s => exact s.wellFormed_name hh
  | unsigned n => exact hh _ (List.mem_singleton_self _)

theorem ensures_writable (names : PrefixMap) : (vocabulary names).Ensures (Writable names) where
  leaf := by
    intro s k hs hk
    obtain ⟨q, hq, rfl⟩ := Option.map_eq_some_iff.mp hk
    exact .key (s.name.writable (SignedName.wellFormed_name hs) hq)
  block := by
    intro h k keys hh hk hne hkeys
    obtain ⟨q, hq, rfl⟩ := Option.map_eq_some_iff.mp hk
    exact .group (h.name.writable (GroupHead.wellFormed_name hh) hq) hne hkeys

theorem writableClause_of_parse {text : String} (h : parse names text = .ok result) :
    WritableClause names result := by
  obtain ⟨hne, hall⟩ := (reader names).of_parse (forgetsPlaces names) (ensures_writable names) h
  exact ⟨hne, hall⟩

/-- Each name has a sign before it, or an opening brace behind it. -/
def Directed (ts : List Token) : Prop :=
  ∀ before (n : WrittenName) after, ts = before ++ n.token :: after →
    (∃ direction : Direction, before.getLast? = some (.mark direction.mark)) ∨
      after.head? = some (.mark .openBrace)

theorem directed_append (hts : Directed ts) (hus : Directed us) : Directed (ts ++ us) := by
  have hright : ∀ middle (n : WrittenName) after, us = middle ++ n.token :: after →
      (∃ direction : Direction, (ts ++ middle).getLast? = some (.mark direction.mark)) ∨
        after.head? = some (.mark .openBrace) := by
    intro middle n after h
    rcases hus middle n after h with ⟨direction, hsign⟩ | hopen
    · refine Or.inl ⟨direction, ?_⟩
      rw [List.getLast?_append, hsign, Option.some_or]
    · exact Or.inr hopen
  intro before n after h
  rcases List.append_eq_append_iff.mp h with ⟨middle, rfl, hmiddle⟩ | ⟨middle, rfl, hmiddle⟩
  · exact hright middle n after hmiddle
  · cases middle with
    | nil =>
      have hall := hright [] n after hmiddle.symm
      rwa [List.append_nil, List.append_nil] at hall
    | cons t middle =>
      rw [List.cons_append] at hmiddle
      obtain ⟨rfl, rfl⟩ := List.cons.inj hmiddle
      rcases hts before n middle rfl with hsign | hopen
      · exact Or.inl hsign
      · refine Or.inr ?_
        rw [List.head?_append, hopen, Option.some_or]

theorem directed_mark (m : Mark) : Directed [.mark m] := by
  intro before n after h
  have hmem : n.token ∈ [Token.mark m] := by
    rw [h]
    exact List.mem_append_right before List.mem_cons_self
  cases List.mem_singleton.mp hmem

theorem directed_signed (s : SignedName) : Directed s.tokens := by
  intro before n after h
  cases before with
  | nil => cases h
  | cons t before =>
    obtain ⟨rfl, h⟩ := List.cons.inj h
    cases before with
    | nil => exact Or.inl ⟨s.direction, rfl⟩
    | cons u before =>
      obtain ⟨_, h⟩ := List.cons.inj h
      cases before <;> cases h

theorem directed_unsigned (n : WrittenName) : Directed [n.token, .mark .openBrace] := by
  intro before m after h
  cases before with
  | nil =>
    obtain ⟨_, rfl⟩ := List.cons.inj h
    exact Or.inr rfl
  | cons t before =>
    obtain ⟨_, h⟩ := List.cons.inj h
    cases before with
    | nil => cases h
    | cons u before =>
      obtain ⟨_, h⟩ := List.cons.inj h
      cases before <;> cases h

theorem directed_head (h : GroupHead) : Directed (h.tokens ++ [.mark .openBrace]) := by
  cases h with
  | signed s => exact directed_append (directed_signed s) (directed_mark .openBrace)
  | unsigned n => exact directed_unsigned n

mutual

theorem directed_item (names : PrefixMap) : (item : Outline.Item SignedName GroupHead) →
    Directed (item.tokens (vocabulary names))
  | .leaf s => by
    rw [Outline.Item.tokens]
    exact directed_signed s
  | .block h items => by
    have hblock := directed_append (directed_head h)
      (directed_append (directed_outline names items) (directed_mark .closeBrace))
    rwa [List.append_assoc, List.singleton_append] at hblock

theorem directed_outline (names : PrefixMap) : (o : Outline SignedName GroupHead) →
    Directed (o.tokens (vocabulary names))
  | .one item => by
    rw [Outline.tokens]
    exact directed_item names item
  | .more item rest => by
    have hrest := directed_append (directed_mark .comma) (directed_outline names rest)
    exact directed_append (directed_item names item) hrest

end

/-- An order clause is accepted if its tokens are those of an outline that means its keys, and none
of its groups is empty. It is not accepted if a name in it has neither a sign nor a group. -/
theorem parse_eq_keys_iff_derives (names : PrefixMap) (text : String) (keys : List SortKey) :
    (parse names text = .ok keys ↔ ∃ ts, tokenize text = .ok ts ∧ Derives names ts keys) ∧
    (parse names text = .ok keys → keys ≠ [] ∧ ∀ k ∈ keys, k.Filled) ∧
    ∀ before (n : WrittenName) after, tokenize text = .ok (before ++ n.token :: after) →
      (∀ direction : Direction, before.getLast? ≠ some (.mark direction.mark)) →
      after.head? ≠ some (.mark .openBrace) → ∃ e, parse names text = .error e := by
  refine ⟨parse_eq_ok_iff, ?_, ?_⟩
  · intro h
    have hwritable := writableClause_of_parse h
    exact ⟨hwritable.nonempty, fun k hk => (hwritable.keys k hk).filled⟩
  · intro before n after hts hsign hopen
    cases hparse : parse names text with
    | error e => exact ⟨e, rfl⟩
    | ok result =>
      obtain ⟨us, hus, o, rfl, _⟩ := parse_eq_ok_iff.mp hparse
      have heq := Except.ok.inj (hus.symm.trans hts)
      rcases directed_outline names o before n after heq with ⟨direction, h⟩ | h
      · exact absurd h (hsign direction)
      · exact absurd h hopen

theorem parse_eq_keys_iff_derives_unsigned :
    ∃ e, parse (PrefixMap.empty.insert "p" "http://e/") "+p:a\x7b-p:b,p:c\x7d" = .error e := by
  have htokens : tokenize "+p:a\x7b-p:b,p:c\x7d" = .ok ([.mark .plus, .prefixed "p" "a",
      .mark .openBrace, .mark .minus, .prefixed "p" "b", .mark .comma] ++
      (WrittenName.token ⟨"p", "c"⟩) :: [.mark .closeBrace]) := by
    decide +kernel
  have hsign : ∀ direction : Direction, some (Token.mark .comma) ≠ some (.mark direction.mark) := by
    intro direction
    cases direction <;> decide
  exact (parse_eq_keys_iff_derives _ _ []).2.2 _ _ _ htokens hsign (by decide)

end ResourceQuery.SortKey
