import Mathlib.Logic.Function.Basic
import ResourceQuery.Term.Grammar

/-!
# Derivations of where clauses

The grammar of where clauses as a type of trees: each node is one production,

    clause    ::= term ('and' term)*
    term      ::= name condition
    condition ::= comparison value | 'in' '[' value (',' value)* ']' | '{' clause '}'
    value     ::= uri | boolean | ('+' | '-')? number | string ('^^' name | '@' language)?

and the tokens of a tree are its leaves from left to right. A tree means terms if its prefixes
are bound and its numbers can be represented. The grammar is unambiguous: a tree is determined
by its tokens, since a token that could go on with a value never follows one.
-/

namespace ResourceQuery.Term

set_option autoImplicit false

/-- A name as a clause writes it. -/
structure WrittenName where
  pfx : String
  localName : String
  deriving DecidableEq

/-- A derivation of a value. -/
inductive Literal where
  | uri (reference : String)
  | boolean (value : Bool)
  | number (digits : String)
  | signed (negative : Bool) (digits : String)
  | string (body : String)
  | typed (body : String) (datatype : WrittenName)
  | tagged (body tag : String)
  deriving DecidableEq

mutual

/-- A derivation of a term. -/
inductive Phrase where
  | mk (name : WrittenName) (condition : Condition)

/-- A derivation of what a term says about its property. -/
inductive Condition where
  | comparison (relation : Comparison) (operand : Literal)
  | membership (first : Literal) (rest : List Literal)
  | nested (first : Phrase) (rest : List Phrase)

end

/-- A derivation of a clause. -/
structure Clause where
  first : Phrase
  rest : List Phrase

def WrittenName.token (n : WrittenName) : Token := .prefixed n.pfx n.localName

def sign (negative : Bool) : Token := .mark (if negative then .minus else .plus)

def Literal.tokens : Literal → List Token
  | uri reference => [.uri reference]
  | boolean value => [.boolean value]
  | number digits => [.number digits]
  | signed negative digits => [sign negative, .number digits]
  | string body => [.quoted body]
  | typed body datatype => [.quoted body, .mark .datatype, datatype.token]
  | tagged body tag => [.quoted body, .language tag]

/-- The operands of a list after the first. -/
def Literal.later (ls : List Literal) : List Token := ls.flatMap fun l => .mark .comma :: l.tokens

mutual

def Phrase.tokens : Phrase → List Token
  | .mk name condition => name.token :: condition.tokens

def Condition.tokens : Condition → List Token
  | .comparison relation operand => .comparison relation :: operand.tokens
  | .membership first rest =>
    .mark .membership :: .mark .openBracket ::
      (first.tokens ++ (Literal.later rest ++ [.mark .closeBracket]))
  | .nested first rest =>
    .mark .openBrace :: (first.tokens ++ (Phrase.later rest ++ [.mark .closeBrace]))

/-- The terms of a clause after the first. -/
def Phrase.later : List Phrase → List Token
  | [] => []
  | p :: ps => .mark .conjunction :: (p.tokens ++ Phrase.later ps)

end

def Clause.tokens (c : Clause) : List Token := c.first.tokens ++ Phrase.later c.rest

def WrittenName.name? (names : PrefixMap) (n : WrittenName) : Option QualifiedName :=
  (names.resolve n.pfx).map fun space => ⟨space, n.localName, some n.pfx⟩

def decimal? (negative : Bool) (digits : String) : Option Value :=
  (Decimal.ofDigits negative digits.toList).toOption.map .decimal

def Literal.value? (names : PrefixMap) : Literal → Option Value
  | uri reference => some (.uri reference)
  | boolean value => some (.boolean value)
  | number digits => decimal? false digits
  | signed negative digits => decimal? negative digits
  | string body => some (.string body)
  | typed body datatype => (datatype.name? names).map (.typed body)
  | tagged body tag => some (.tagged body tag)

mutual

def Phrase.term? (names : PrefixMap) : Phrase → Option Term
  | .mk name condition => do
    let property ← name.name? names
    condition.term? names property

def Condition.term? (names : PrefixMap) (property : QualifiedName) : Condition → Option Term
  | .comparison relation operand => do
    let v ← operand.value? names
    some (.comparison property relation v)
  | .membership first rest => do
    let v ← first.value? names
    let vs ← rest.mapM (Literal.value? names)
    some (.membership property (v :: vs))
  | .nested first rest => do
    let t ← first.term? names
    let ts ← Phrase.terms? names rest
    some (.nested property (t :: ts))

def Phrase.terms? (names : PrefixMap) : List Phrase → Option (List Term)
  | [] => some []
  | p :: ps => do
    let t ← p.term? names
    let ts ← Phrase.terms? names ps
    some (t :: ts)

end

def Clause.terms? (names : PrefixMap) (c : Clause) : Option (List Term) := do
  let t ← c.first.term? names
  let ts ← Phrase.terms? names c.rest
  some (t :: ts)

section

variable {names : PrefixMap} {property : QualifiedName} {t : Term} {ts : List Term}

theorem Literal.mapM_cons_eq_some_iff {l : Literal} {ls : List Literal} {vs : List Value} :
    (l :: ls).mapM (value? names) = some vs ↔
      ∃ u us, l.value? names = some u ∧ ls.mapM (value? names) = some us ∧ vs = u :: us := by
  simp [List.mapM_cons, Option.bind_eq_some_iff, eq_comm (a := vs)]

theorem Phrase.term?_eq_some_iff {name : WrittenName} {condition : Condition} :
    (Phrase.mk name condition).term? names = some t ↔
      ∃ q, name.name? names = some q ∧ condition.term? names q = some t := by
  simp [Phrase.term?, Option.bind_eq_some_iff]

theorem Condition.term?_comparison_eq_some_iff {relation : Comparison} {operand : Literal} :
    (Condition.comparison relation operand).term? names property = some t ↔
      ∃ v, operand.value? names = some v ∧ t = .comparison property relation v := by
  simp [Condition.term?, Option.bind_eq_some_iff, eq_comm (a := t)]

theorem Condition.term?_membership_eq_some_iff {first : Literal} {rest : List Literal} :
    (Condition.membership first rest).term? names property = some t ↔
      ∃ v vs, first.value? names = some v ∧ rest.mapM (Literal.value? names) = some vs ∧
        t = .membership property (v :: vs) := by
  simp [Condition.term?, Option.bind_eq_some_iff, eq_comm (a := t)]

theorem Condition.term?_nested_eq_some_iff {first : Phrase} {rest : List Phrase} :
    (Condition.nested first rest).term? names property = some t ↔
      ∃ u us, first.term? names = some u ∧ Phrase.terms? names rest = some us ∧
        t = .nested property (u :: us) := by
  simp [Condition.term?, Option.bind_eq_some_iff, eq_comm (a := t)]

theorem Phrase.terms?_cons_eq_some_iff {p : Phrase} {ps : List Phrase} :
    Phrase.terms? names (p :: ps) = some ts ↔
      ∃ u us, p.term? names = some u ∧ Phrase.terms? names ps = some us ∧ ts = u :: us := by
  simp [Phrase.terms?, Option.bind_eq_some_iff, eq_comm (a := ts)]

theorem Clause.terms?_eq_some_iff {c : Clause} :
    c.terms? names = some ts ↔
      ∃ u us, c.first.term? names = some u ∧ Phrase.terms? names c.rest = some us ∧
        ts = u :: us := by
  simp [Clause.terms?, Option.bind_eq_some_iff, eq_comm (a := ts)]

end

/-- Whether a token goes on with a string value. -/
def qualifies : Token → Bool
  | .mark .datatype | .language _ => true
  | _ => false

/-- No such token comes first. -/
def Settles (xs : List Token) : Prop := ∀ t ∈ xs.head?, qualifies t = false

variable {xs ys : List Token} {m n : WrittenName} {l k : Literal} {ls ks : List Literal}

theorem settles_nil : Settles [] := nofun

theorem settles_cons {t : Token} (h : qualifies t = false) : Settles (t :: xs) := by
  intro u hu
  cases hu
  exact h

theorem settles_literal_later (h : Settles xs) : Settles (Literal.later ls ++ xs) := by
  cases ls with
  | nil => exact h
  | cons l ls => exact settles_cons rfl

theorem settles_later {ps : List Phrase} (h : Settles xs) : Settles (Phrase.later ps ++ xs) := by
  cases ps with
  | nil => exact h
  | cons p ps => exact settles_cons rfl

theorem WrittenName.token_inj (h : m.token = n.token) : m = n := by
  cases m
  cases n
  cases h
  rfl

/-- The value that tokens begin with, and the tokens after it. -/
def Literal.front? : List Token → Option (Literal × List Token)
  | .uri reference :: xs => some (uri reference, xs)
  | .boolean value :: xs => some (boolean value, xs)
  | .number digits :: xs => some (number digits, xs)
  | .mark .plus :: .number digits :: xs => some (signed false digits, xs)
  | .mark .minus :: .number digits :: xs => some (signed true digits, xs)
  | .quoted body :: .mark .datatype :: .prefixed pfx localName :: xs =>
    some (typed body ⟨pfx, localName⟩, xs)
  | .quoted body :: .language tag :: xs => some (tagged body tag, xs)
  | .quoted body :: xs => some (string body, xs)
  | _ => none

theorem Literal.front?_append (hxs : Settles xs) : front? (l.tokens ++ xs) = some (l, xs) := by
  cases l with
  | uri _ | boolean _ | number _ | typed _ _ | tagged _ _ => rfl
  | signed negative _ => cases negative <;> rfl
  | string body =>
    simp only [tokens, List.cons_append, List.nil_append]
    unfold front?
    split
    all_goals simp_all [Settles, qualifies]

theorem Literal.tokens_inj (hxs : Settles xs) (hys : Settles ys)
    (h : l.tokens ++ xs = k.tokens ++ ys) : l = k ∧ xs = ys := by
  have hfront : some (l, xs) = some (k, ys) := by
    rw [← front?_append hxs, ← front?_append hys, h]
  cases hfront
  exact ⟨rfl, rfl⟩

theorem Literal.later_inj
    (h : later ls ++ .mark .closeBracket :: xs = later ks ++ .mark .closeBracket :: ys) :
    ls = ks ∧ xs = ys := by
  induction ls generalizing ks with
  | nil =>
    cases ks with
    | nil =>
      cases h
      exact ⟨rfl, rfl⟩
    | cons k ks => cases h
  | cons l ls ih =>
    cases ks with
    | nil => cases h
    | cons k ks =>
      simp only [later, List.flatMap_cons, List.cons_append, List.append_assoc,
        List.cons.injEq, true_and] at h
      obtain ⟨rfl, hrest⟩ := tokens_inj (settles_literal_later (settles_cons rfl))
        (settles_literal_later (settles_cons rfl)) h
      obtain ⟨rfl, rfl⟩ := ih hrest
      exact ⟨rfl, rfl⟩

-- The induction is on the first tree, and the second is split along with it: two conditions of
-- different productions differ in their first token.
mutual

theorem Phrase.tokens_inj : (p q : Phrase) → ∀ {xs ys}, Settles xs → Settles ys →
    p.tokens ++ xs = q.tokens ++ ys → p = q ∧ xs = ys
  | .mk name condition, .mk name' condition', _, _, hxs, hys, h => by
    simp only [Phrase.tokens, List.cons_append, List.cons.injEq] at h
    obtain rfl := WrittenName.token_inj h.1
    obtain ⟨rfl, rfl⟩ := Condition.tokens_inj condition condition' hxs hys h.2
    exact ⟨rfl, rfl⟩

theorem Condition.tokens_inj : (c d : Condition) → ∀ {xs ys}, Settles xs → Settles ys →
    c.tokens ++ xs = d.tokens ++ ys → c = d ∧ xs = ys
  | .comparison relation operand, .comparison relation' operand', _, _, hxs, hys, h => by
    simp only [Condition.tokens, List.cons_append, List.cons.injEq, Token.comparison.injEq] at h
    obtain ⟨rfl, h⟩ := h
    obtain ⟨rfl, rfl⟩ := Literal.tokens_inj hxs hys h
    exact ⟨rfl, rfl⟩
  | .membership first rest, .membership first' rest', _, _, _, _, h => by
    simp only [Condition.tokens, List.cons_append, List.append_assoc, List.nil_append,
      List.cons.injEq, true_and] at h
    obtain ⟨rfl, hrest⟩ := Literal.tokens_inj (settles_literal_later (settles_cons rfl))
      (settles_literal_later (settles_cons rfl)) h
    obtain ⟨rfl, rfl⟩ := Literal.later_inj hrest
    exact ⟨rfl, rfl⟩
  | .nested first rest, .nested first' rest', _, _, _, _, h => by
    simp only [Condition.tokens, List.cons_append, List.append_assoc, List.nil_append,
      List.cons.injEq, true_and] at h
    have hclose : ∀ zs : List Token, Settles (.mark .closeBrace :: zs) := fun _ => settles_cons rfl
    obtain ⟨rfl, hrest⟩ := Phrase.tokens_inj first first' (settles_later (hclose _))
      (settles_later (hclose _)) h
    obtain ⟨rfl, hafter⟩ := Phrase.later_inj rest rest' (hclose _) (hclose _) (by simp) (by simp)
      hrest
    cases hafter
    exact ⟨rfl, rfl⟩
  | .comparison _ _, .membership _ _, _, _, _, _, h
  | .comparison _ _, .nested _ _, _, _, _, _, h
  | .membership _ _, .comparison _ _, _, _, _, _, h
  | .membership _ _, .nested _ _, _, _, _, _, h
  | .nested _ _, .comparison _ _, _, _, _, _, h
  | .nested _ _, .membership _ _, _, _, _, _, h => by cases h

theorem Phrase.later_inj : (ps qs : List Phrase) → ∀ {xs ys}, Settles xs → Settles ys →
    xs.head? ≠ some (.mark .conjunction) → ys.head? ≠ some (.mark .conjunction) →
    Phrase.later ps ++ xs = Phrase.later qs ++ ys → ps = qs ∧ xs = ys
  | [], [], _, _, _, _, _, _, h => ⟨rfl, h⟩
  | [], _ :: _, _, _, _, _, hand, _, h => by
    rw [Phrase.later, List.nil_append] at h
    exact absurd (by rw [h]; rfl) hand
  | _ :: _, [], _, _, _, _, _, hand, h => by
    rw [Phrase.later, Phrase.later, List.nil_append] at h
    exact absurd (by rw [← h]; rfl) hand
  | p :: ps, q :: qs, _, _, hxs, hys, hand, hand', h => by
    simp only [Phrase.later, List.cons_append, List.append_assoc, List.cons.injEq, true_and] at h
    obtain ⟨rfl, hrest⟩ := Phrase.tokens_inj p q (settles_later hxs) (settles_later hys) h
    obtain ⟨rfl, rfl⟩ := Phrase.later_inj ps qs hxs hys hand hand' hrest
    exact ⟨rfl, rfl⟩

end

theorem Clause.tokens_injective : Function.Injective Clause.tokens := by
  rintro ⟨first, rest⟩ ⟨first', rest'⟩ h
  have h' : first.tokens ++ (Phrase.later rest ++ []) =
      first'.tokens ++ (Phrase.later rest' ++ []) := by
    rw [List.append_nil, List.append_nil]
    exact h
  obtain ⟨rfl, hrest⟩ := Phrase.tokens_inj first first' (settles_later settles_nil)
    (settles_later settles_nil) h'
  obtain ⟨rfl, _⟩ := Phrase.later_inj rest rest' settles_nil settles_nil nofun nofun hrest
  rfl

end ResourceQuery.Term
