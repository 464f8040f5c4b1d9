import ResourceQuery.Proofs.Clause.Grammars
import ResourceQuery.Proofs.Outline.Reading
import ResourceQuery.Proofs.Term.Acceptance

/-!
# Order clauses that are accepted

An order clause is an outline: what stands alone is a name with a sign, and what opens a block is a
name with or without one. The parser accepts exactly the token lists that such outlines have, and
returns their keys as they stand.
-/

namespace ResourceQuery

set_option autoImplicit false

open Term (WrittenName)
open Grammar

def Direction.mark : Direction → Mark
  | ascending => .plus
  | descending => .minus

namespace SortKey

/-- A sign and the name after it. -/
structure SignedName where
  direction : Direction
  name : WrittenName

/-- What a group is written with before its braces. -/
inductive GroupHead where
  | signed (signed : SignedName)
  | unsigned (name : WrittenName)

def SignedName.tokens (s : SignedName) : List Token := [.mark s.direction.mark, s.name.token]

namespace GroupHead

def tokens : GroupHead → List Token
  | signed s => s.tokens
  | unsigned n => [n.token]

/-- A group without a sign is ascending. -/
def direction : GroupHead → Direction
  | signed s => s.direction
  | unsigned _ => .ascending

def name : GroupHead → WrittenName
  | signed s => s.name
  | unsigned n => n

end GroupHead

/-- The grammar of order clauses,

    clause ::= key (',' key)*
    key    ::= ('+' | '-') name ('{' clause '}')? | name '{' clause '}'

as that of outlines. -/
def vocabulary (names : PrefixMap) :
    Vocabulary SignedName GroupHead (Direction × QualifiedName) SortKey where
  leaf s := s.tokens
  head h := h.tokens
  leaf? s := (s.name.name? names).map (.key s.direction)
  head? h := (h.name.name? names).map (h.direction, ·)
  close k keys := .group k.1 k.2 keys

variable {names : PrefixMap} {enclosing : List (Direction × QualifiedName × List SortKey)}
  {outer : List ((Direction × QualifiedName) × List SortKey)} {keys result : List SortKey}
  {direction : Direction} {property : QualifiedName} {d : Draft} {t : Token} {ts : List Token}

/-- The open groups as a draft keeps them. -/
def flat (outer : List ((Direction × QualifiedName) × List SortKey)) :
    List (Direction × QualifiedName × List SortKey) :=
  outer.map fun group => (group.1.1, group.1.2, group.2)

theorem afterKey_eq_ok_iff {expects : Expects} :
    Draft.afterKey ⟨flat outer, keys, expects⟩ t = .ok d ↔
      (t = .mark .comma ∧ d = ⟨flat outer, keys, .key⟩) ∨
      ∃ k earlier outer', outer = (k, earlier) :: outer' ∧ t = .mark .closeBrace ∧
        d = ⟨flat outer', .group k.1 k.2 keys.reverse :: earlier, .separator⟩ := by
  constructor
  · intro h
    unfold Draft.afterKey at h
    split at h
    · cases h
      exact Or.inl ⟨rfl, rfl⟩
    · rename_i direction property earlier rest hflat
      cases h
      cases outer with
      | nil => cases hflat
      | cons group outer' =>
        cases hflat
        exact Or.inr ⟨group.1, group.2, outer', rfl, rfl, rfl⟩
    · cases h
    · cases h
  · rintro (⟨rfl, rfl⟩ | ⟨k, earlier, outer', rfl, rfl, rfl⟩)
    · rfl
    · rfl

theorem finishKey_eq_ok_iff {expects : Expects} :
    Draft.finishKey ⟨flat outer, keys, expects⟩ = .ok result ↔
      outer = [] ∧ result = keys.reverse := by
  cases outer with
  | nil =>
    constructor
    · rintro ⟨⟩
      exact ⟨rfl, rfl⟩
    · rintro ⟨_, rfl⟩
      rfl
  | cons group outer' =>
    constructor
    · intro h
      cases h
    · rintro ⟨h, _⟩
      cases h

def states (names : PrefixMap) : (grammar names).OutlineStates (vocabulary names).close where
  ready outer keys := ⟨flat outer, keys, .key⟩
  after outer keys := ⟨flat outer, keys, .separator⟩
  start := rfl
  step_after_iff := afterKey_eq_ok_iff
  finish_after_iff := finishKey_eq_ok_iff

/-- A signed name is a key by itself, unless a brace comes next. -/
theorem accepts?_block_iff :
    (grammar names).accepts? ⟨flat outer, keys, .block direction property⟩ ts = some result ↔
      (grammar names).accepts? ⟨flat outer, .key direction property :: keys, .separator⟩ ts =
        some result ∨
      ∃ rest, ts = .mark .openBrace :: rest ∧
        (grammar names).accepts? ⟨flat (((direction, property), keys) :: outer), [], .key⟩ rest =
          some result := by
  have hother : ∀ t, t ≠ .mark .openBrace →
      (grammar names).stepToken ⟨flat outer, keys, .block direction property⟩ t =
        (grammar names).stepToken ⟨flat outer, .key direction property :: keys, .separator⟩ t := by
    intro t ht
    simp only [stepToken, grammar, Draft.step]
    rfl
  exact (states names).accepts?_of_opens rfl hother rfl

/-- A name without a sign has to open a group. -/
theorem step_group_eq_ok_iff {written : String} {offset : Nat} :
    (grammar names).stepToken ⟨enclosing, keys, .group property written offset⟩ t = .ok d ↔
      t = .mark .openBrace ∧ d = ⟨(.ascending, property, keys) :: enclosing, [], .key⟩ := by
  constructor
  · intro h
    simp only [stepToken, grammar, Draft.step] at h
    split at h
    · cases h
      exact ⟨rfl, rfl⟩
    · cases h
  · rintro ⟨rfl, rfl⟩
    rfl

theorem step_property_eq_ok_iff :
    (grammar names).stepToken ⟨enclosing, keys, .property direction⟩ t = .ok d ↔
      ∃ (n : WrittenName) (q : QualifiedName), t = n.token ∧ n.name? names = some q ∧
        d = ⟨enclosing, keys, .block direction q⟩ := by
  constructor
  · intro h
    simp only [stepToken, grammar, Draft.step] at h
    split at h
    · rename_i q hq
      cases h
      obtain ⟨n, rfl, hn⟩ := Term.qualify_eq_ok_iff.mp hq
      exact ⟨n, q, rfl, hn, rfl⟩
    · cases h
  · rintro ⟨n, q, rfl, hn, rfl⟩
    have hq : names.qualify .sortKey n.token = .ok q := Term.qualify_eq_ok_iff.mpr ⟨n, rfl, hn⟩
    simp only [stepToken, grammar, Draft.step, hq]

theorem step_key_eq_ok_iff :
    (grammar names).stepToken ⟨enclosing, keys, .key⟩ t = .ok d ↔
      (∃ direction, t = .mark (Direction.mark direction) ∧
        d = ⟨enclosing, keys, .property direction⟩) ∨
      ∃ (n : WrittenName) (q : QualifiedName), t = n.token ∧ n.name? names = some q ∧
        d = ⟨enclosing, keys, .group q "" 0⟩ := by
  constructor
  · intro h
    simp only [stepToken, grammar, Draft.step] at h
    split at h
    · cases h
      exact Or.inl ⟨.ascending, rfl, rfl⟩
    · cases h
      exact Or.inl ⟨.descending, rfl, rfl⟩
    · split at h
      · rename_i q hq
        cases h
        obtain ⟨n, rfl, hn⟩ := Term.qualify_eq_ok_iff.mp hq
        exact Or.inr ⟨n, q, rfl, hn, rfl⟩
      · cases h
  · rintro (⟨direction, rfl, rfl⟩ | ⟨n, q, rfl, hn, rfl⟩)
    · cases direction with
      | ascending => rfl
      | descending => rfl
    · have hq : names.qualify .sortKey (.prefixed n.pfx n.localName) = .ok q :=
        Term.qualify_eq_ok_iff.mpr ⟨n, rfl, hn⟩
      simp only [stepToken, grammar, Draft.step, WrittenName.token, hq]

/-- What a name with a sign goes on to be. -/
theorem accepts?_signed (n : WrittenName) (hn : n.name? names = some property)
    (h : (grammar names).accepts? ⟨enclosing, keys, .block direction property⟩ ts = some result) :
    (grammar names).accepts? ⟨enclosing, keys, .key⟩
      (.mark direction.mark :: n.token :: ts) = some result := by
  have hname : (grammar names).accepts? ⟨enclosing, keys, .property direction⟩ (n.token :: ts) =
      some result :=
    accepts?_cons_eq_some_iff.mpr ⟨_, step_property_eq_ok_iff.mpr ⟨n, property, rfl, hn, rfl⟩, h⟩
  exact accepts?_cons_eq_some_iff.mpr
    ⟨_, step_key_eq_ok_iff.mpr (Or.inl ⟨direction, rfl, rfl⟩), hname⟩

theorem accepts?_unsigned (n : WrittenName) (hn : n.name? names = some property)
    (h : (grammar names).accepts? ⟨(.ascending, property, keys) :: enclosing, [], .key⟩ ts =
      some result) :
    (grammar names).accepts? ⟨enclosing, keys, .key⟩
      (n.token :: .mark .openBrace :: ts) = some result := by
  have hopen : (grammar names).accepts? ⟨enclosing, keys, .group property "" 0⟩
      (.mark .openBrace :: ts) = some result :=
    accepts?_cons_eq_some_iff.mpr ⟨_, step_group_eq_ok_iff.mpr ⟨rfl, rfl⟩, h⟩
  exact accepts?_cons_eq_some_iff.mpr
    ⟨_, step_key_eq_ok_iff.mpr (Or.inr ⟨n, property, rfl, hn, rfl⟩), hopen⟩

def reader (names : PrefixMap) : (grammar names).OutlineReader (vocabulary names) where
  toOutlineStates := states names
  ready_iff := by
    intro outer xs ts result
    constructor
    · intro h
      obtain ⟨t, rest, d, rfl, hstep, h⟩ := (accepts?_iff_of_finish_error rfl).mp h
      rcases step_key_eq_ok_iff.mp hstep with ⟨direction, rfl, rfl⟩ | ⟨n, q, rfl, hn, rfl⟩
      · obtain ⟨t, rest, d, rfl, hstep, h⟩ := (accepts?_iff_of_finish_error rfl).mp h
        obtain ⟨n, q, rfl, hn, rfl⟩ := step_property_eq_ok_iff.mp hstep
        rcases accepts?_block_iff.mp h with halone | ⟨rest, rfl, hblock⟩
        · refine Or.inl ⟨⟨direction, n⟩, .key direction q, rest, rfl, ?_, halone⟩
          simp only [vocabulary, hn, Option.map_some]
        · refine Or.inr ⟨.signed ⟨direction, n⟩, (direction, q), rest, rfl, ?_, hblock⟩
          simp only [vocabulary, GroupHead.name, GroupHead.direction, hn, Option.map_some]
      · obtain ⟨t, rest, d, rfl, hstep, h⟩ := (accepts?_iff_of_finish_error rfl).mp h
        obtain ⟨rfl, rfl⟩ := step_group_eq_ok_iff.mp hstep
        refine Or.inr ⟨.unsigned n, (.ascending, q), rest, rfl, ?_, h⟩
        simp only [vocabulary, GroupHead.name, GroupHead.direction, hn, Option.map_some]
    · rintro (⟨⟨direction, n⟩, x, rest, rfl, hx, h⟩ | ⟨head, k, rest, rfl, hk, h⟩)
      · obtain ⟨q, hn, rfl⟩ := Option.map_eq_some_iff.mp hx
        exact accepts?_signed n hn (accepts?_block_iff.mpr (Or.inl h))
      · obtain ⟨q, hn, rfl⟩ := Option.map_eq_some_iff.mp hk
        cases head with
        | signed s =>
          exact accepts?_signed s.name hn (accepts?_block_iff.mpr (Or.inr ⟨rest, rfl, h⟩))
        | unsigned n => exact accepts?_unsigned n hn h

/-- The tokens are those of an outline that means the keys. -/
def Derives (names : PrefixMap) (ts : List Token) (keys : List SortKey) : Prop :=
  ∃ o, Outline.tokens (vocabulary names) o = ts ∧ o.values? (vocabulary names) = some keys

theorem parse_eq_ok_iff {text : String} :
    parse names text = .ok result ↔ ∃ ts, tokenize text = .ok ts ∧ Derives names ts result :=
  (reader names).parse_eq_ok_iff (forgetsPlaces names)

end SortKey

end ResourceQuery
