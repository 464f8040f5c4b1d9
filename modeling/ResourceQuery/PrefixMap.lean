import ResourceQuery.Name

/-!
# Prefix maps

The prefixes that a request declares, each bound to one namespace, in the order of their first
declaration. A later declaration of a prefix changes its namespace and not its place.
-/

namespace ResourceQuery

set_option autoImplicit false

/-- Binds `k` to `v`: in the place of its earlier binding, or else at the end. -/
def bindPair (k v : String) : List (String × String) → List (String × String)
  | [] => [(k, v)]
  | (k', v') :: rest => if k' = k then (k, v) :: rest else (k', v') :: bindPair k v rest

theorem keys_bindPair (k v : String) (l : List (String × String)) :
    (bindPair k v l).map Prod.fst =
      if k ∈ l.map Prod.fst then l.map Prod.fst else l.map Prod.fst ++ [k] := by
  induction l with
  | nil => rfl
  | cons head rest ih =>
    obtain ⟨k', v'⟩ := head
    by_cases h : k' = k
    · simp [bindPair, h]
    · by_cases hmem : k ∈ rest.map Prod.fst
      · simp [bindPair, h, ih, hmem]
      · simp [bindPair, h, Ne.symm h, ih, hmem]

structure PrefixMap where
  pairs : List (String × String)
  distinct : (pairs.map Prod.fst).Nodup
  deriving DecidableEq

namespace PrefixMap

def empty : PrefixMap := ⟨[], List.nodup_nil⟩

def insert (m : PrefixMap) (pfx space : String) : PrefixMap where
  pairs := bindPair pfx space m.pairs
  distinct := by
    rw [keys_bindPair]
    split
    · exact m.distinct
    · next h =>
      refine List.nodup_append.mpr ⟨m.distinct, by simp, ?_⟩
      intro a ha b hb hab
      simp only [List.mem_singleton] at hb
      exact h (hb ▸ hab ▸ ha)

def ofList (pairs : List (String × String)) : PrefixMap :=
  pairs.foldl (fun m p => m.insert p.1 p.2) empty

def resolve (m : PrefixMap) (pfx : String) : Option String := m.pairs.lookup pfx

def contains (m : PrefixMap) (pfx : String) : Bool := (m.resolve pfx).isSome

def size (m : PrefixMap) : Nat := m.pairs.length

def isEmpty (m : PrefixMap) : Bool := m.pairs.isEmpty

/-- Whether two maps hold the same bindings, in whatever order. -/
def agrees (m n : PrefixMap) : Bool :=
  m.size == n.size && m.pairs.all fun p => n.resolve p.1 == some p.2

def text (m : PrefixMap) : String :=
  ",".intercalate (m.pairs.map fun p => p.1 ++ "=<" ++ p.2 ++ ">")

end PrefixMap

end ResourceQuery
