import Mathlib.Order.Lattice
import Mathlib.Order.BoundedOrder.Basic
import ResourceQuery.Selection

/-!
# How much is shown along a path

What a selection shows can be said without its levels: at the end of every path of URIs it
shows nothing, a value, or a value with what nests below it. These extents are ordered, and two
choices for one property are to be joined so that at every path the greater extent is shown.
-/

namespace ResourceQuery

set_option autoImplicit false

/-- How much of a property is shown: nothing, its value, or also what is shown of its value. -/
inductive Extent where
  | hidden
  | plain
  | nested
  deriving DecidableEq, Repr

namespace Extent

def rank : Extent → Nat
  | hidden => 0
  | plain => 1
  | nested => 2

theorem rank_injective : Function.Injective rank := by
  intro a b h
  cases a <;> cases b <;> first | rfl | exact absurd h (by decide)

instance : LinearOrder Extent := LinearOrder.lift' rank rank_injective

instance : OrderBot Extent where
  bot := hidden
  bot_le a := Nat.zero_le a.rank

theorem le_nested (a : Extent) : a ≤ nested := by
  cases a <;> decide

end Extent

namespace Selection

/-- How much is shown at the end of a path, below a choice that is looked up. -/
def extent : Option Choice → List String → Extent
  | none, _ => .hidden
  | some .plain, [] => .plain
  | some .plain, _ :: _ => .hidden
  | some (.nested _), [] => .nested
  | some (.nested s), u :: path => extent (s.select u) path

variable {c d : Option Choice} {s t : Selection} {u : String} {path : List String}

@[simp] theorem extent_none : extent none = ⊥ := by
  funext path
  cases path <;> rfl

@[simp] theorem extent_plain_nil : extent (some .plain) [] = .plain := rfl

@[simp] theorem extent_nested_nil : extent (some (.nested s)) [] = .nested := rfl

@[simp] theorem extent_nested_cons :
    extent (some (.nested s)) (u :: path) = extent (s.select u) path := rfl

/-- The least that a property can be shown is its value. -/
theorem extent_plain_le (h : c.isSome = true) : extent (some .plain) ≤ extent c := by
  intro path
  cases path with
  | nil =>
    cases c with
    | none => cases h
    | some c =>
      cases c with
      | plain => exact le_rfl
      | nested s =>
        rw [extent_plain_nil, extent_nested_nil]
        decide
  | cons u path => exact bot_le

theorem eq_of_extent_eq (h : extent c = extent d)
    (hnested : ∀ s t, c = some (.nested s) → d = some (.nested t) →
      (∀ u, extent (s.select u) = extent (t.select u)) → s = t) : c = d := by
  have hnil : extent c [] = extent d [] := congrFun h []
  match c, d with
  | none, none => rfl
  | some .plain, some .plain => rfl
  | some (.nested s), some (.nested t) =>
    have hst : s = t := hnested s t rfl rfl fun u => funext fun path => congrFun h (u :: path)
    rw [hst]
  | none, some .plain | none, some (.nested _) | some .plain, none
  | some .plain, some (.nested _) | some (.nested _), none | some (.nested _), some .plain =>
    cases hnil

end Selection

end ResourceQuery
