import ResourceQuery.Name

/-!
# Sort keys

Resources are ordered by a list of keys. A key is a property with a direction, or a group of
keys of the resource that is the value of a property; a group has a direction too.
-/

namespace ResourceQuery

set_option autoImplicit false

inductive Direction where
  | ascending | descending
  deriving DecidableEq, Repr

def Direction.sign : Direction → String
  | ascending => "+"
  | descending => "-"

inductive SortKey where
  | key (direction : Direction) (property : QualifiedName)
  | group (direction : Direction) (property : QualifiedName) (keys : List SortKey)

namespace SortKey

def direction : SortKey → Direction
  | key direction _ | group direction _ _ => direction

def property : SortKey → QualifiedName
  | key _ property | group _ property _ => property

mutual

/-- Whether two keys are the same, with names compared by what they name. -/
def agrees : SortKey → SortKey → Bool
  | key d p, key e q => d == e && p.agrees q
  | group d p ks, group e q ls => d == e && p.agrees q && allAgree ks ls
  | _, _ => false

def allAgree : List SortKey → List SortKey → Bool
  | [], [] => true
  | k :: ks, l :: ls => k.agrees l && allAgree ks ls
  | _, _ => false

end

mutual

/-- A key as it is written, always with its sign. -/
def text : SortKey → String
  | key direction property => direction.sign ++ property.text
  | group direction property keys =>
    direction.sign ++ property.text ++ "\x7b" ++ ",".intercalate (texts keys) ++ "\x7d"

def texts : List SortKey → List String
  | [] => []
  | k :: ks => k.text :: texts ks

end

theorem texts_eq_map (ks : List SortKey) : texts ks = ks.map text := by
  induction ks with
  | nil => rfl
  | cons k ks ih => simp [texts, ih]

def clauseText (keys : List SortKey) : String := ",".intercalate (texts keys)

end SortKey

end ResourceQuery
