import ResourceQuery.Property
import ResourceQuery.Selection.Merge

/-!
# The selection that a property list asks for

A property list says what a client wants, and `Selection.ofProperties` turns it into what each
property is looked up in. A property that is listed more than once is shown as deep as any of
its places says, and a wildcard counts for every property wherever it stands in the list.
-/

namespace ResourceQuery

set_option autoImplicit false

namespace Selection

def insert (s : Selection) (uri : String) (c : Choice) : Selection :=
  mk (insertWith Choice.join uri c s.entries) s.wildcard

/-- Joins a choice to the wildcard. The listed choices stay as they are until the level is
settled. -/
def widen (s : Selection) (c : Choice) : Selection :=
  mk s.entries (Option.merge Choice.join s.wildcard (some c))

def settled (s : Selection) : Selection := settle Choice.join s.entries s.wildcard

end Selection

namespace Property

mutual

/-- The level that `s` becomes where a property is listed next. A name without braces adds
nothing after a wildcard. -/
def addTo (s : Selection) : Property → Selection
  | wildcard => s.widen .plain
  | named name => if s.showsAll then s else s.insert name.uri .plain
  | nestedWildcard children => s.widen (.nested (addAllTo .empty children).settled)
  | nested name children => s.insert name.uri (.nested (addAllTo .empty children).settled)

def addAllTo (s : Selection) : List Property → Selection
  | [] => s
  | p :: ps => addAllTo (p.addTo s) ps

end

end Property

def Selection.ofProperties (properties : List Property) : Selection :=
  (Property.addAllTo .empty properties).settled

end ResourceQuery
