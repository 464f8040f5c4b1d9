import ResourceQuery.PrefixMap.Grammar
import ResourceQuery.Proofs.Parser.Run
import ResourceQuery.Proofs.PrefixMap.Bindings

/-!
# Prefix clauses that are accepted

A prefix clause is a list of definitions with commas between them, and the list may be empty. The
parser accepts exactly the token lists that such lists have, and returns the map that comes of
binding their prefixes in turn. What a draft still demands of the tokens to come is written down
for each expectation, and it is shown that a token is accepted just where it meets the demand, and
leaves what is demanded after it.
-/

namespace ResourceQuery.PrefixMap

set_option autoImplicit false

variable {d d' : Draft} {t : Token} {ts : List Token} {m bound : PrefixMap}

/-- What a definition can declare: a name, or a reserved word, which is a name there. -/
inductive DeclaredName where
  | name (word : String)
  | reserved (word : String) (h : word ∈ Token.reserved)

namespace DeclaredName

def token : DeclaredName → Token
  | name word => .name word
  | reserved word _ => .ofWord word

def word : DeclaredName → String
  | name word => word
  | reserved word _ => word

end DeclaredName

/-- A definition as it is written, `name '=' uri`. -/
structure Definition where
  name : DeclaredName
  space : String

namespace Definition

def tokens (x : Definition) : List Token := [x.name.token, .comparison .eq, .uri x.space]

def pair (x : Definition) : String × String := (x.name.word, x.space)

/-- The tokens of definitions with commas between them. -/
def clause (xs : List Definition) : List Token :=
  [Token.mark .comma].intercalate (xs.map tokens)

/-- The tokens of definitions that each follow a comma. -/
def later (xs : List Definition) : List Token := xs.flatMap fun x => .mark .comma :: x.tokens

theorem clause_cons (x : Definition) (xs : List Definition) :
    clause (x :: xs) = x.tokens ++ later xs := by
  rw [clause, List.map_cons, intercalate_singleton_cons, List.flatMap_map, later]

end Definition

open Definition (later clause clause_cons)

theorem asName?_eq_some_iff {word : String} :
    t.asName? = some word ↔ ∃ n : DeclaredName, t = n.token ∧ word = n.word := by
  constructor
  · intro h
    unfold Token.asName? at h
    split at h <;> cases h
    · exact ⟨.name _, rfl, rfl⟩
    · exact ⟨.reserved "and" (by decide), rfl, rfl⟩
    · exact ⟨.reserved "in" (by decide), rfl, rfl⟩
    · exact ⟨.reserved "true" (by decide), rfl, rfl⟩
    · exact ⟨.reserved "false" (by decide), rfl, rfl⟩
  · rintro ⟨n, rfl, rfl⟩
    cases n with
    | name word => rfl
    | reserved word h =>
      simp only [Token.reserved, List.mem_cons, List.not_mem_nil, or_false] at h
      rcases h with rfl | rfl | rfl | rfl <;> rfl

/-- More definitions may follow, and come to `m`. -/
def Continues (bound : PrefixMap) (ts : List Token) (m : PrefixMap) : Prop :=
  ∃ xs, ts = later xs ∧ m = bound.insertAll (xs.map Definition.pair)

namespace Draft

/-- What a draft demands of the tokens to come if they are to make `m` of it. -/
def Demands (d : Draft) (ts : List Token) (m : PrefixMap) : Prop :=
  match d.expects with
  | .definitions => ∃ xs, ts = clause xs ∧ m = d.bound.insertAll (xs.map Definition.pair)
  | .definition => ∃ (n : DeclaredName) (space : String) (after : List Token),
    ts = n.token :: .comparison .eq :: .uri space :: after ∧
      Continues (d.bound.insert n.word space) after m
  | .equals pfx => ∃ space after, ts = .comparison .eq :: .uri space :: after ∧
      Continues (d.bound.insert pfx space) after m
  | .space pfx => ∃ space after, ts = .uri space :: after ∧
      Continues (d.bound.insert pfx space) after m
  | .separator => Continues d.bound ts m

theorem demands_definitions_iff : Demands ⟨bound, .definitions⟩ ts m ↔
    (ts = [] ∧ m = bound) ∨ Demands ⟨bound, .definition⟩ ts m := by
  constructor
  · rintro ⟨xs, rfl, rfl⟩
    cases xs with
    | nil => exact Or.inl ⟨rfl, rfl⟩
    | cons x xs =>
      rw [clause_cons]
      exact Or.inr ⟨x.name, x.space, later xs, rfl, xs, rfl, rfl⟩
  · rintro (⟨rfl, rfl⟩ | ⟨n, space, _, rfl, xs, rfl, rfl⟩)
    · exact ⟨[], rfl, rfl⟩
    · exact ⟨⟨n, space⟩ :: xs, (clause_cons ⟨n, space⟩ xs).symm, rfl⟩

theorem continues_cons_iff : Continues bound (t :: ts) m ↔
    t = .mark .comma ∧ Demands ⟨bound, .definition⟩ ts m := by
  constructor
  · rintro ⟨_ | ⟨x, xs⟩, h, rfl⟩
    · cases h
    · cases h
      exact ⟨rfl, x.name, x.space, later xs, rfl, xs, rfl, rfl⟩
  · rintro ⟨rfl, n, space, _, rfl, xs, rfl, rfl⟩
    exact ⟨⟨n, space⟩ :: xs, rfl, rfl⟩

theorem continues_nil_iff : Continues bound [] m ↔ m = bound := by
  constructor
  · rintro ⟨_ | ⟨x, xs⟩, h, rfl⟩
    · rfl
    · cases h
  · rintro rfl
    exact ⟨[], rfl, rfl⟩

theorem demands_nil_iff : d.Demands [] m ↔ d.finish = .ok m := by
  obtain ⟨bound, expects⟩ := d
  cases expects with
  | definitions =>
    rw [demands_definitions_iff]
    constructor
    · rintro (⟨_, rfl⟩ | ⟨n, space, after, ⟨⟩, _⟩)
      rfl
    · intro h
      exact Or.inl ⟨rfl, (Except.ok.inj h).symm⟩
  | definition =>
    constructor
    · rintro ⟨n, space, after, ⟨⟩, _⟩
    · nofun
  | equals _ | space _ =>
    constructor
    · rintro ⟨space, after, ⟨⟩, _⟩
    · nofun
  | separator =>
    rw [Demands, continues_nil_iff]
    exact ⟨fun h => congrArg Except.ok h.symm, fun h => (Except.ok.inj h).symm⟩

theorem step_definition_eq_ok_iff : step ⟨bound, .definition⟩ t = .ok d' ↔
    ∃ n : DeclaredName, t = n.token ∧ d' = ⟨bound, .equals n.word⟩ := by
  simp only [step]
  constructor
  · intro h
    split at h
    · rename_i word hword
      obtain ⟨n, rfl, rfl⟩ := asName?_eq_some_iff.mp hword
      cases h
      exact ⟨n, rfl, rfl⟩
    · cases h
  · rintro ⟨n, rfl, rfl⟩
    rw [asName?_eq_some_iff.mpr ⟨n, rfl, rfl⟩]

theorem step_equals_eq_ok_iff {pfx : String} : step ⟨bound, .equals pfx⟩ t = .ok d' ↔
    t = .comparison .eq ∧ d' = ⟨bound, .space pfx⟩ := by
  constructor
  · intro h
    simp only [step] at h
    split at h <;> cases h
    exact ⟨rfl, rfl⟩
  · rintro ⟨rfl, rfl⟩
    rfl

theorem step_space_eq_ok_iff {pfx : String} : step ⟨bound, .space pfx⟩ t = .ok d' ↔
    ∃ space, t = .uri space ∧ d' = ⟨bound.insert pfx space, .separator⟩ := by
  constructor
  · intro h
    simp only [step] at h
    split at h <;> cases h
    exact ⟨_, rfl, rfl⟩
  · rintro ⟨space, rfl, rfl⟩
    rfl

theorem step_separator_eq_ok_iff : step ⟨bound, .separator⟩ t = .ok d' ↔
    t = .mark .comma ∧ d' = ⟨bound, .definition⟩ := by
  constructor
  · intro h
    simp only [step] at h
    split at h <;> cases h
    exact ⟨rfl, rfl⟩
  · rintro ⟨rfl, rfl⟩
    rfl

theorem demands_definition_cons_iff : Demands ⟨bound, .definition⟩ (t :: ts) m ↔
    ∃ d', step ⟨bound, .definition⟩ t = .ok d' ∧ d'.Demands ts m := by
  simp only [step_definition_eq_ok_iff]
  constructor
  · rintro ⟨n, space, after, ⟨⟩, h⟩
    exact ⟨_, ⟨n, rfl, rfl⟩, space, after, rfl, h⟩
  · rintro ⟨_, ⟨n, rfl, rfl⟩, space, after, rfl, h⟩
    exact ⟨n, space, after, rfl, h⟩

/-- A token is accepted just if it meets the demand, and what comes after it meets what is
demanded then. -/
theorem demands_cons_iff : d.Demands (t :: ts) m ↔ ∃ d', d.step t = .ok d' ∧ d'.Demands ts m := by
  obtain ⟨bound, expects⟩ := d
  cases expects with
  | definitions =>
    rw [demands_definitions_iff, demands_definition_cons_iff]
    simp [step]
  | definition => exact demands_definition_cons_iff
  | equals pfx =>
    simp only [step_equals_eq_ok_iff]
    constructor
    · rintro ⟨space, after, ⟨⟩, h⟩
      exact ⟨_, ⟨rfl, rfl⟩, space, after, rfl, h⟩
    · rintro ⟨_, ⟨rfl, rfl⟩, space, after, rfl, h⟩
      exact ⟨space, after, rfl, h⟩
  | space pfx =>
    simp only [step_space_eq_ok_iff]
    constructor
    · rintro ⟨space, after, ⟨⟩, h⟩
      exact ⟨_, ⟨space, rfl, rfl⟩, h⟩
    · rintro ⟨_, ⟨space, rfl, rfl⟩, h⟩
      exact ⟨space, ts, rfl, h⟩
  | separator =>
    simp only [step_separator_eq_ok_iff]
    rw [Demands, continues_cons_iff]
    constructor
    · rintro ⟨rfl, h⟩
      exact ⟨_, ⟨rfl, rfl⟩, h⟩
    · rintro ⟨_, ⟨rfl, rfl⟩, h⟩
      exact ⟨rfl, h⟩

theorem feed_eq_ok_iff : feed step finish d ts = .ok m ↔ d.Demands ts m :=
  feed_eq_ok_iff_demands (Demands · · m) (fun _ => demands_nil_iff)
    fun _ _ _ => demands_cons_iff

end Draft

theorem parse_eq_ok_iff {text : String} : parse text = .ok m ↔
    ∃ xs : List Definition, tokenize text = .ok (clause xs) ∧
      m = ofList (xs.map Definition.pair) := by
  have hfeed : parse text = .ok m ↔
      ∃ ts, tokenize text = .ok ts ∧ Draft.Demands ⟨empty, .definitions⟩ ts m := by
    simp only [← Draft.feed_eq_ok_iff]
    exact Grammar.parse_eq_ok_iff_tokenize fun _ _ => rfl
  rw [hfeed]
  constructor
  · rintro ⟨_, hts, xs, rfl, rfl⟩
    exact ⟨xs, hts, rfl⟩
  · rintro ⟨xs, hts, rfl⟩
    exact ⟨clause xs, hts, xs, rfl, rfl⟩

/-- A prefix clause is accepted if its tokens are those of definitions with commas between them,
and the map holds what comes of these in turn. -/
theorem parse_eq_ok_iff_definitions (text : String) (m : PrefixMap) :
    (parse text = .ok m ↔ ∃ xs : List Definition, tokenize text = .ok (clause xs) ∧
      m.Holds (xs.map Definition.pair)) ∧
    ((∃ n, parse text = .ok n) ↔ ∃ xs : List Definition, tokenize text = .ok (clause xs)) := by
  simp only [holds_iff, parse_eq_ok_iff, true_and]
  constructor
  · rintro ⟨_, xs, hxs, rfl⟩
    exact ⟨xs, hxs⟩
  · rintro ⟨xs, hxs⟩
    exact ⟨_, xs, hxs, rfl⟩

end ResourceQuery.PrefixMap
