/-!
# Qualified names

A property or datatype is named by a namespace and a local name within it. The prefix that a
clause wrote for the namespace is kept to render the name again, and is no part of what it
names.
-/

namespace ResourceQuery

set_option autoImplicit false

structure QualifiedName where
  space : String
  localName : String
  pfx : Option String
  deriving DecidableEq, Repr

namespace QualifiedName

/-- What is named. It is not the URI, which another namespace and local name may share. -/
def identity (n : QualifiedName) : String × String := (n.space, n.localName)

/-- Whether two names name the same thing, whatever prefixes they were written with. -/
def agrees (m n : QualifiedName) : Bool := m.identity == n.identity

instance : Hashable QualifiedName := ⟨fun n => hash n.identity⟩

def uri (n : QualifiedName) : String := n.space ++ n.localName

def text (n : QualifiedName) : String :=
  match n.pfx with
  | some p => p ++ ":" ++ n.localName
  | none => "<" ++ n.uri ++ ">"

theorem agrees_iff {m n : QualifiedName} :
    m.agrees n = true ↔ m.space = n.space ∧ m.localName = n.localName := by
  simp [agrees, identity]

theorem hash_eq_of_agrees {m n : QualifiedName} (h : m.agrees n = true) : hash m = hash n := by
  have hid : m.identity = n.identity := by simpa [agrees] using h
  simp only [hash, hid]

end QualifiedName

end ResourceQuery
