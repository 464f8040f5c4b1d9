import ResourceQuery.Proofs.Token.WellFormed

/-!
# Derivations of outlines

Property lists and order clauses have one shape. They are outlines: items with commas between,
each of which is a leaf, or a head with a block of items in braces,

    outline ::= item (',' item)*
    item    ::= leaf | head '{' outline '}'

Derivations are trees whose nodes are these productions. What a leaf and a head may be, which
tokens each has and what it means is up to a `Vocabulary`.
-/

namespace ResourceQuery

set_option autoImplicit false

variable {A B K α : Type}

/-- Leaves `A` that mean values, and heads `B` that mean what a block is closed with. There is no
meaning where a prefix is not bound. -/
structure Vocabulary (A B K α : Type) where
  leaf : A → List Token
  head : B → List Token
  leaf? : A → Option α
  head? : B → Option K
  close : K → List α → α

/-- What holds of the meaning of each leaf that has well-formed tokens, and of each block if it
holds of the items in it. -/
structure Vocabulary.Ensures (V : Vocabulary A B K α) (P : α → Prop) : Prop where
  leaf : ∀ {a x}, (∀ t ∈ V.leaf a, t.WellFormed) → V.leaf? a = some x → P x
  block : ∀ {b k xs}, (∀ t ∈ V.head b, t.WellFormed) → V.head? b = some k → xs ≠ [] →
    (∀ x ∈ xs, P x) → P (V.close k xs)

mutual

/-- A derivation of an item. -/
inductive Outline.Item (A B : Type) where
  | leaf (leaf : A)
  | block (head : B) (items : Outline A B)

/-- A derivation of a list of items, which is never empty. -/
inductive Outline (A B : Type) where
  | one (item : Outline.Item A B)
  | more (item : Outline.Item A B) (rest : Outline A B)

end

namespace Outline

mutual

def Item.tokens (V : Vocabulary A B K α) : Item A B → List Token
  | .leaf a => V.leaf a
  | .block b items =>
    V.head b ++ .mark .openBrace :: (items.tokens V ++ [.mark .closeBrace])

def tokens (V : Vocabulary A B K α) : Outline A B → List Token
  | .one item => item.tokens V
  | .more item rest => item.tokens V ++ .mark .comma :: rest.tokens V

end

mutual

def Item.value? (V : Vocabulary A B K α) : Item A B → Option α
  | .leaf a => V.leaf? a
  | .block b items => do
    let k ← V.head? b
    let xs ← items.values? V
    some (V.close k xs)

/-- What the items mean, in the order in which they stand. -/
def values? (V : Vocabulary A B K α) : Outline A B → Option (List α)
  | .one item => do
    let x ← item.value? V
    some [x]
  | .more item rest => do
    let x ← item.value? V
    let xs ← rest.values? V
    some (x :: xs)

end

variable {V : Vocabulary A B K α} {item : Item A B} {rest : Outline A B} {x : α} {xs : List α}

theorem Item.value?_block_eq_some_iff {b : B} :
    (Item.block b rest).value? V = some x ↔
      ∃ k xs, V.head? b = some k ∧ rest.values? V = some xs ∧ x = V.close k xs := by
  simp [Item.value?, Option.bind_eq_some_iff, eq_comm (a := x)]

theorem values?_one_eq_some_iff :
    (Outline.one item).values? V = some xs ↔ ∃ x, item.value? V = some x ∧ xs = [x] := by
  simp [values?, Option.bind_eq_some_iff, eq_comm (a := xs)]

theorem values?_more_eq_some_iff :
    (Outline.more item rest).values? V = some xs ↔
      ∃ y ys, item.value? V = some y ∧ rest.values? V = some ys ∧ xs = y :: ys := by
  simp [values?, Option.bind_eq_some_iff, eq_comm (a := xs)]

variable {P : α → Prop}

mutual

theorem Item.of_value? (hV : V.Ensures P) : (item : Item A B) → ∀ {x},
    (∀ t ∈ item.tokens V, t.WellFormed) → item.value? V = some x → P x
  | .leaf a, x, hitem, hx => by
    rw [Item.tokens] at hitem
    rw [Item.value?] at hx
    exact hV.leaf hitem hx
  | .block b items, x, hitem, hx => by
    obtain ⟨k, xs, hk, hxs, rfl⟩ := Item.value?_block_eq_some_iff.mp hx
    simp only [Item.tokens, List.forall_mem_append, List.forall_mem_cons] at hitem
    obtain ⟨hne, hall⟩ := items.of_values? hV hitem.2.2.1 hxs
    exact hV.block hitem.1 hk hne hall

theorem of_values? (hV : V.Ensures P) : (o : Outline A B) → ∀ {xs},
    (∀ t ∈ o.tokens V, t.WellFormed) → o.values? V = some xs → xs ≠ [] ∧ ∀ x ∈ xs, P x
  | .one item, xs, ho, hxs => by
    obtain ⟨x, hx, rfl⟩ := values?_one_eq_some_iff.mp hxs
    rw [tokens] at ho
    have hitem := item.of_value? hV ho hx
    exact ⟨List.cons_ne_nil x [], List.forall_mem_singleton.mpr hitem⟩
  | .more item rest, xs, ho, hxs => by
    obtain ⟨x, ys, hx, hys, rfl⟩ := values?_more_eq_some_iff.mp hxs
    simp only [tokens, List.forall_mem_append, List.forall_mem_cons] at ho
    have hitem := item.of_value? hV ho.1 hx
    have hrest := (rest.of_values? hV ho.2.2 hys).2
    exact ⟨List.cons_ne_nil x ys, List.forall_mem_cons.mpr ⟨hitem, hrest⟩⟩

end

end Outline

end ResourceQuery
