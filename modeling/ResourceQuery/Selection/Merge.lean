import ResourceQuery.Selection

/-!
# Merging selections

`Selection.merge` shows whatever one of two selections shows, and as deep as one of them shows
it. At each level the listed choices are joined key by key and the wildcards are joined; then
the wildcard is joined to every listed choice, and the entries that say no more than the
wildcard are dropped. So a level lists exactly the properties that differ from its wildcard.
-/

namespace ResourceQuery

set_option autoImplicit false

/-- Joins two choices for one property, where `merge` joins what they nest. -/
def Choice.joinWith (merge : Selection → Selection → Selection) : Choice → Choice → Choice
  | plain, c => c
  | c, plain => c
  | nested s, nested t => nested (merge s t)

namespace Selection

/-- Lists a choice for `uri` in its place, joined to the choice that is listed there. -/
def insertWith (join : Choice → Choice → Choice) (uri : String) (c : Choice) :
    List (String × Choice) → List (String × Choice)
  | [] => [(uri, c)]
  | (v, d) :: rest =>
    if uri < v then (uri, c) :: (v, d) :: rest
    else if uri = v then (v, join d c) :: rest
    else (v, d) :: insertWith join uri c rest

def insertAll (join : Choice → Choice → Choice) (added entries : List (String × Choice)) :
    List (String × Choice) :=
  added.foldl (fun es e => insertWith join e.1 e.2 es) entries

/-- The level with these choices and this wildcard. Every property has what the wildcard gives
it, and one that has no more is not listed. -/
def settle (join : Choice → Choice → Choice) (entries : List (String × Choice)) :
    Option Choice → Selection
  | none => mk entries none
  | some common =>
    mk ((entries.map fun e => (e.1, join e.2 common)).filter fun e => e.2 ≠ common) (some common)

/-- Merges one level of two selections, where `join` joins two choices for one property. -/
def mergeLevel (join : Choice → Choice → Choice) (s t : Selection) : Selection :=
  if s = t then s
  else settle join (insertAll join t.entries s.entries) (Option.merge join s.wildcard t.wildcard)

/-- Merges selections of at most `n` levels. -/
def mergeUpTo : Nat → Selection → Selection → Selection
  | 0, s, _ => s
  | n + 1, s, t => mergeLevel (Choice.joinWith (mergeUpTo n)) s t

/-- The selection that shows what `s` or `t` shows. -/
def merge (s t : Selection) : Selection := mergeUpTo (max s.depth t.depth) s t

end Selection

def Choice.join (c d : Choice) : Choice := c.joinWith Selection.merge d

end ResourceQuery
