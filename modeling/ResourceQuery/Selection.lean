/-!
# Selections

A selection answers, for each property of a resource, whether it is shown, and whether the
resource that is its value is shown in turn and how. It lists some properties by URI, in
ascending order, and has one answer for all others, the wildcard.
-/

namespace ResourceQuery

set_option autoImplicit false

mutual

/-- What is shown of a resource. -/
inductive Selection where
  | mk (entries : List (String × Choice)) (wildcard : Option Choice)

/-- How a property that is shown is shown: as a value only, or with what is shown of the
resource that is its value. -/
inductive Choice where
  | plain
  | nested (inner : Selection)

end

namespace Selection

def entries : Selection → List (String × Choice)
  | mk entries _ => entries

def wildcard : Selection → Option Choice
  | mk _ wildcard => wildcard

def empty : Selection := mk [] none

/-- The choice that is listed for a property, whatever the wildcard says. -/
def get? (s : Selection) (uri : String) : Option Choice := s.entries.lookup uri

def contains (s : Selection) (uri : String) : Bool := (s.get? uri).isSome

/-- The choice for a property: the one that is listed, or else the wildcard. -/
def select (s : Selection) (uri : String) : Option Choice := (s.get? uri).or s.wildcard

def size (s : Selection) : Nat := s.entries.length

/-- Whether the properties that are not listed are shown. -/
def showsAll (s : Selection) : Bool := s.wildcard.isSome

def isEmpty (s : Selection) : Bool := s.entries.isEmpty && !s.showsAll

/-- The selection that every property which is not listed carries on with. -/
def common? (s : Selection) : Option Selection :=
  match s.wildcard with
  | some (.nested inner) => some inner
  | _ => none

end Selection

mutual

def Selection.depth : Selection → Nat
  | .mk entries wildcard => 1 + max (Choice.entriesDepth entries) (Choice.wildcardDepth wildcard)

def Choice.depth : Choice → Nat
  | .plain => 0
  | .nested inner => inner.depth

def Choice.entriesDepth : List (String × Choice) → Nat
  | [] => 0
  | e :: es => max (Choice.entryDepth e) (Choice.entriesDepth es)

def Choice.entryDepth : String × Choice → Nat
  | (_, c) => c.depth

def Choice.wildcardDepth : Option Choice → Nat
  | none => 0
  | some c => c.depth

end

theorem Choice.depth_le_entriesDepth {e : String × Choice} {es : List (String × Choice)}
    (h : e ∈ es) : e.2.depth ≤ Choice.entriesDepth es := by
  induction es with
  | nil => cases h
  | cons f fs ih =>
    rcases List.mem_cons.mp h with rfl | h
    · obtain ⟨u, c⟩ := e
      exact Nat.le_max_left ..
    · exact Nat.le_trans (ih h) (Nat.le_max_right ..)

theorem Selection.depth_lt_of_mem_entries {s : Selection} {e : String × Choice}
    (h : e ∈ s.entries) : e.2.depth < s.depth := by
  obtain ⟨es, w⟩ := s
  have : e.2.depth ≤ Choice.entriesDepth es := Choice.depth_le_entriesDepth h
  simp only [depth]
  omega

theorem Selection.depth_lt_of_wildcard {s : Selection} {c : Choice} (h : s.wildcard = some c) :
    c.depth < s.depth := by
  obtain ⟨es, w⟩ := s
  simp only [wildcard] at h
  subst h
  simp only [depth, Choice.wildcardDepth]
  omega

mutual

def Selection.decEq : (s t : Selection) → Decidable (s = t)
  | .mk es w, .mk fs v =>
    match Choice.decEqEntries es fs, Choice.decEqWildcard w v with
    | isTrue h, isTrue k => isTrue (by rw [h, k])
    | isFalse h, _ => isFalse (by intro e; cases e; exact h rfl)
    | _, isFalse h => isFalse (by intro e; cases e; exact h rfl)
termination_by structural s _ => s

def Choice.decEq : (c d : Choice) → Decidable (c = d)
  | .plain, .plain => isTrue rfl
  | .nested s, .nested t =>
    match Selection.decEq s t with
    | isTrue h => isTrue (by rw [h])
    | isFalse h => isFalse (by intro e; cases e; exact h rfl)
  | .plain, .nested _ => isFalse (by intro e; cases e)
  | .nested _, .plain => isFalse (by intro e; cases e)
termination_by structural c _ => c

def Choice.decEqEntries : (es fs : List (String × Choice)) → Decidable (es = fs)
  | [], [] => isTrue rfl
  | e :: es, f :: fs =>
    match Choice.decEqEntry e f, Choice.decEqEntries es fs with
    | isTrue h, isTrue k => isTrue (by rw [h, k])
    | isFalse h, _ => isFalse (by intro e; cases e; exact h rfl)
    | _, isFalse h => isFalse (by intro e; cases e; exact h rfl)
  | [], _ :: _ => isFalse (by intro e; cases e)
  | _ :: _, [] => isFalse (by intro e; cases e)
termination_by structural es _ => es

def Choice.decEqEntry : (e f : String × Choice) → Decidable (e = f)
  | (u, c), (v, d) =>
    if h : u = v then
      match Choice.decEq c d with
      | isTrue k => isTrue (by rw [h, k])
      | isFalse k => isFalse (by intro e; cases e; exact k rfl)
    else isFalse (by intro e; cases e; exact h rfl)
termination_by structural e _ => e

def Choice.decEqWildcard : (w v : Option Choice) → Decidable (w = v)
  | none, none => isTrue rfl
  | some c, some d =>
    match Choice.decEq c d with
    | isTrue h => isTrue (by rw [h])
    | isFalse h => isFalse (by intro e; cases e; exact h rfl)
  | none, some _ => isFalse (by intro e; cases e)
  | some _, none => isFalse (by intro e; cases e)
termination_by structural w _ => w

end

instance : DecidableEq Selection := Selection.decEq

instance : DecidableEq Choice := Choice.decEq

end ResourceQuery
