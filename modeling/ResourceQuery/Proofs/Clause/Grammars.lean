import ResourceQuery.Proofs.Parser.Stream
import ResourceQuery.Request

/-!
# The grammars of the clauses together

All clauses of a request are read by grammars that have three things in common. Which tokens they
accept does not depend on where the tokens stand, although the grammar of order clauses holds on
to the place of a key without a sign. The only place an error can be given by the grammar itself,
and not by the parser, is the place of a token that has been taken before. And no problem that a
grammar finds is a fault of the lexer.
-/

namespace ResourceQuery

set_option autoImplicit false

/-- What a clause of some sort says. -/
inductive Tree where
  | prefixes (bound : PrefixMap)
  | condition (terms : List Term)
  | properties (list : List Property)
  | orderBy (keys : List SortKey)
  | searchTerms (phrases : List String)

namespace Clause

/-- The clause of a text by itself, under the prefixes `names`. -/
def parse (names : PrefixMap) : Clause → String → Except ParseError Tree
  | prefixes, text => (PrefixMap.parse text).map .prefixes
  | condition, text => (Term.parse names text).map .condition
  | select, text => (Property.parse names text).map .properties
  | properties, text => (Property.parse names text).map .properties
  | orderBy, text => (SortKey.parse names text).map .orderBy
  | searchTerms, text => (SearchTerms.parse text).map .searchTerms

/-- The clause that a parser reads next, and the parser as it is left. -/
def read (names : PrefixMap) : Clause → Parser → Except ParseError Tree × Parser
  | prefixes, p => (p.read PrefixMap.grammar).map (·.map .prefixes) id
  | condition, p => (p.read (Term.grammar names)).map (·.map .condition) id
  | select, p => (p.read (Property.grammar names)).map (·.map .properties) id
  | properties, p => (p.read (Property.grammar names)).map (·.map .properties) id
  | orderBy, p => (p.read (SortKey.grammar names)).map (·.map .orderBy) id
  | searchTerms, p => (p.read SearchTerms.grammar).map (·.map .searchTerms) id

end Clause

variable {σ α : Type} {names : PrefixMap} {t : Token} {problem : Problem} {x : Lexeme}
  {key : String} {offset : Nat}

/-- `holds P` says of a state that `P` is true of each place it holds on to. Such a place is that
of a token that has been taken, and only such a place is given to an error. -/
structure Grammar.Tracks (g : Grammar σ α) (holds : (String → Nat → Prop) → σ → Prop) : Prop where
  mono : ∀ {P Q : String → Nat → Prop} {s}, (∀ key offset, P key offset → Q key offset) →
    holds P s → holds Q s
  start : ∀ P, holds P g.start
  step : ∀ {P s s' x}, holds P s → P x.fragment x.offset → g.step s x = .ok s' → holds P s'
  step_error : ∀ {P s x key offset}, holds P s → g.step s x = .error (.undirected key offset) →
    P key offset
  finish_error : ∀ {P s key offset}, holds P s → g.finish s = .error (.undirected key offset) →
    P key offset

/-- Whether a problem lies with what comes next. A fault of the lexer does not, and neither does a
key without a sign, which lies before. -/
def Problem.isLocal : Problem → Bool
  | lexical _ | undirected _ _ => false
  | _ => true

/-- Each problem that the grammar finds lies with what comes next. -/
structure Grammar.Local (g : Grammar σ α) : Prop where
  step : ∀ {s x problem}, g.step s x = .error problem → problem.isLocal = true
  finish : ∀ {s problem}, g.finish s = .error problem → problem.isLocal = true

/-- No problem that the grammar finds is a fault of the lexer. -/
structure Grammar.Faultless (g : Grammar σ α) : Prop where
  step : ∀ {s x fault}, g.step s x ≠ .error (.lexical fault)
  finish : ∀ {s fault}, g.finish s ≠ .error (.lexical fault)

theorem Grammar.Local.faultless {g : Grammar σ α} (h : g.Local) : g.Faultless where
  step := fun hstep => Bool.false_ne_true (h.step hstep)
  finish := fun hfinish => Bool.false_ne_true (h.finish hfinish)

/-- A grammar that gives no place to its errors need not hold on to any. -/
theorem Grammar.Local.tracks {g : Grammar σ α} (h : g.Local) : g.Tracks fun _ _ => True where
  mono := fun _ _ => trivial
  start := fun _ => trivial
  step := fun _ _ _ => trivial
  step_error := fun _ hstep => absurd (h.step hstep) Bool.false_ne_true
  finish_error := fun _ hfinish => absurd (h.finish hfinish) Bool.false_ne_true

theorem PrefixMap.isLocal_of_qualify {wanted : Expectation}
    (h : names.qualify wanted t = .error problem) : problem.isLocal = true := by
  unfold qualify at h
  split at h
  · split at h
    · cases h
    · cases h
      rfl
  · cases h
    rfl

namespace PrefixMap

theorem forgetsPlaces : grammar.ForgetsPlaces id := Grammar.forgetsPlaces_id fun _ _ => rfl

theorem Draft.isLocal_of_step {d : Draft} (h : d.step t = .error problem) :
    problem.isLocal = true := by
  unfold step at h
  split at h <;> split at h <;> cases h <;> rfl

theorem Draft.isLocal_of_finish {d : Draft} (h : d.finish = .error problem) :
    problem.isLocal = true := by
  unfold finish at h
  split at h <;> cases h <;> rfl

theorem isLocal : grammar.Local := ⟨Draft.isLocal_of_step, Draft.isLocal_of_finish⟩

end PrefixMap

namespace SearchTerms

theorem forgetsPlaces : grammar.ForgetsPlaces id := Grammar.forgetsPlaces_id fun _ _ => rfl

theorem Draft.isLocal_of_step {d : Draft} (h : d.step t = .error problem) :
    problem.isLocal = true := by
  unfold step at h
  split at h <;> split at h <;> cases h <;> rfl

theorem Draft.isLocal_of_finish {d : Draft} (h : d.finish = .error problem) :
    problem.isLocal = true := by
  unfold finish at h
  split at h <;> cases h <;> rfl

theorem isLocal : grammar.Local := ⟨Draft.isLocal_of_step, Draft.isLocal_of_finish⟩

end SearchTerms

namespace Property

theorem forgetsPlaces (names : PrefixMap) : (grammar names).ForgetsPlaces id :=
  Grammar.forgetsPlaces_id fun _ _ => rfl

theorem Draft.isLocal_of_afterProperty {d : Draft} (h : d.afterProperty t = .error problem) :
    problem.isLocal = true := by
  unfold afterProperty at h
  split at h <;> cases h <;> rfl

theorem Draft.isLocal_of_step {d : Draft} (h : d.step names t = .error problem) :
    problem.isLocal = true := by
  unfold step at h
  split at h
  · split at h
    · cases h
    · split at h
      · cases h
      · rename_i hqualify
        cases h
        exact PrefixMap.isLocal_of_qualify hqualify
  · split at h
    · cases h
    · exact isLocal_of_afterProperty h
  · exact isLocal_of_afterProperty h

theorem Draft.isLocal_of_finish {d : Draft} (h : d.finish = .error problem) :
    problem.isLocal = true := by
  unfold finish at h
  split at h
  · cases h
    rfl
  all_goals
    unfold finishProperty at h
    split at h <;> cases h
    rfl

theorem isLocal (names : PrefixMap) : (grammar names).Local :=
  ⟨Draft.isLocal_of_step, Draft.isLocal_of_finish⟩

end Property

namespace Term

theorem forgetsPlaces (names : PrefixMap) : (grammar names).ForgetsPlaces id :=
  Grammar.forgetsPlaces_id fun _ _ => rfl

theorem Draft.isLocal_of_placeNumber {d : Draft} {slot : Slot} {negative : Bool}
    {digits : String} (h : d.placeNumber slot negative digits = .error problem) :
    problem.isLocal = true := by
  unfold placeNumber at h
  split at h <;> cases h
  rfl

theorem Draft.isLocal_of_beginOperand {d : Draft} {slot : Slot}
    (h : d.beginOperand slot t = .error problem) : problem.isLocal = true := by
  unfold beginOperand at h
  split at h
  · cases h
  · cases h
  · cases h
  · cases h
  · exact isLocal_of_placeNumber h
  · cases h
  · cases h
    rfl
  · split at h <;> cases h <;> rfl
  · cases h
    rfl

theorem Draft.isLocal_of_afterOperand {d : Draft} {property : QualifiedName}
    {operands : List Value} (h : d.afterOperand property operands t = .error problem) :
    problem.isLocal = true := by
  unfold afterOperand at h
  split at h <;> cases h
  rfl

theorem Draft.isLocal_of_afterTerm {d : Draft} (h : d.afterTerm t = .error problem) :
    problem.isLocal = true := by
  unfold afterTerm at h
  split at h <;> cases h <;> rfl

theorem Draft.isLocal_of_step {d : Draft} (h : d.step names t = .error problem) :
    problem.isLocal = true := by
  unfold step at h
  split at h
  · split at h
    · cases h
    · rename_i hqualify
      cases h
      exact PrefixMap.isLocal_of_qualify hqualify
  · split at h <;> cases h
    rfl
  · split at h <;> cases h
    rfl
  · exact isLocal_of_beginOperand h
  · split at h
    · exact isLocal_of_placeNumber h
    · cases h
      rfl
  · split at h
    · cases h
    · cases h
    · unfold afterPlace at h
      split at h
      · exact isLocal_of_afterOperand h
      · exact isLocal_of_afterTerm h
  · split at h
    · cases h
    · rename_i hqualify
      cases h
      exact PrefixMap.isLocal_of_qualify hqualify
  · exact isLocal_of_afterOperand h
  · exact isLocal_of_afterTerm h

theorem Draft.isLocal_of_finishPlaced {d : Draft} (h : d.finishPlaced = .error problem) :
    problem.isLocal = true := by
  unfold finishPlaced at h
  split at h <;> cases h <;> rfl

theorem Draft.isLocal_of_finish {d : Draft} (h : d.finish = .error problem) :
    problem.isLocal = true := by
  unfold finish at h
  split at h
  case h_7 | h_8 | h_9 => exact isLocal_of_finishPlaced h
  all_goals
    cases h
    rfl

theorem isLocal (names : PrefixMap) : (grammar names).Local :=
  ⟨Draft.isLocal_of_step, Draft.isLocal_of_finish⟩

end Term

namespace SortKey

/-- The draft without the text and the place of a key that waits for its braces. -/
def Draft.forget (d : Draft) : Draft :=
  match d.expects with
  | .group property _ _ => { d with expects := .group property "" 0 }
  | _ => d

theorem Draft.afterKey_forget {d d' : Draft} (h : d.afterKey t = .ok d') : d'.forget = d' := by
  unfold afterKey at h
  split at h <;> cases h <;> rfl

theorem Draft.forget_afterKey (d : Draft) :
    (d.afterKey t).toOption.map Draft.forget = (d.afterKey t).toOption := by
  cases h : d.afterKey t with
  | error problem => rfl
  | ok d' => exact congrArg some (afterKey_forget h)

theorem Draft.forget_step (d : Draft) (x : Lexeme) :
    (d.step names x).toOption.map Draft.forget =
      (d.forget.step names ⟨x.token, "", 0⟩).toOption := by
  obtain ⟨enclosing, keys, expects⟩ := d
  cases expects with
  | key =>
    simp only [step, forget]
    split
    · rfl
    · rfl
    · split <;> rfl
  | property direction =>
    simp only [step, forget]
    split <;> rfl
  | block direction property =>
    simp only [step, forget]
    split
    · rfl
    · exact forget_afterKey _
  | group property written offset =>
    simp only [step, forget]
    split <;> rfl
  | separator =>
    simp only [step, forget]
    exact forget_afterKey _

theorem Draft.forget_finish (d : Draft) : d.finish.toOption = d.forget.finish.toOption := by
  obtain ⟨enclosing, keys, expects⟩ := d
  cases expects <;> rfl

theorem forgetsPlaces (names : PrefixMap) : (grammar names).ForgetsPlaces Draft.forget where
  start := rfl
  step := Draft.forget_step
  finish := Draft.forget_finish

/-- The places that a draft holds on to: that of a key that waits for its braces. -/
def Draft.Holds (P : String → Nat → Prop) (d : Draft) : Prop :=
  ∀ property written offset, d.expects = .group property written offset → P written offset

theorem Draft.holds_of_afterKey {P : String → Nat → Prop} {d d' : Draft}
    (h : d.afterKey t = .ok d') : d'.Holds P := by
  unfold afterKey at h
  split at h <;> cases h <;> nofun

theorem Draft.holds_of_step {P : String → Nat → Prop} {d d' : Draft}
    (hx : P x.fragment x.offset) (h : d.step names x = .ok d') : d'.Holds P := by
  unfold step at h
  split at h
  · split at h
    · cases h
      nofun
    · cases h
      nofun
    · split at h
      · cases h
        rintro _ _ _ ⟨⟩
        exact hx
      · cases h
  · split at h
    · cases h
      nofun
    · cases h
  · split at h
    · cases h
      nofun
    · exact holds_of_afterKey h
  · split at h
    · cases h
      nofun
    · cases h
  · exact holds_of_afterKey h

theorem Draft.isLocal_of_afterKey {d : Draft} (h : d.afterKey t = .error problem) :
    problem.isLocal = true := by
  unfold afterKey at h
  split at h <;> cases h <;> rfl

/-- What a draft can find wrong: what comes next, or the key that it holds on to. -/
def Draft.Finds (d : Draft) (problem : Problem) : Prop :=
  problem.isLocal = true ∨ ∃ property key offset, problem = .undirected key offset ∧
    d.expects = .group property key offset

theorem Draft.finds_of_step {d : Draft} (h : d.step names x = .error problem) :
    d.Finds problem := by
  unfold step at h
  split at h
  · split at h
    · cases h
    · cases h
    · split at h
      · cases h
      · rename_i hqualify
        cases h
        exact Or.inl (PrefixMap.isLocal_of_qualify hqualify)
  · split at h
    · cases h
    · rename_i hqualify
      cases h
      exact Or.inl (PrefixMap.isLocal_of_qualify hqualify)
  · split at h
    · cases h
    · exact Or.inl (isLocal_of_afterKey h)
  · rename_i hexpects
    split at h
    · cases h
    · cases h
      exact Or.inr ⟨_, _, _, rfl, hexpects⟩
  · exact Or.inl (isLocal_of_afterKey h)

theorem Draft.finds_of_finish {d : Draft} (h : d.finish = .error problem) : d.Finds problem := by
  have hkey : ∀ d : Draft, d.finishKey = .error problem → problem.isLocal = true := by
    intro d h
    unfold finishKey at h
    split at h <;> cases h
    rfl
  unfold finish at h
  split at h
  · cases h
    exact Or.inl rfl
  · cases h
    exact Or.inl rfl
  · exact Or.inl (hkey _ h)
  · rename_i hexpects
    cases h
    exact Or.inr ⟨_, _, _, rfl, hexpects⟩
  · exact Or.inl (hkey _ h)

theorem Draft.Holds.of_finds {P : String → Nat → Prop} {d : Draft} (hd : d.Holds P)
    (h : d.Finds (.undirected key offset)) : P key offset := by
  rcases h with hlocal | ⟨property, key', offset', heq, hexpects⟩
  · exact absurd hlocal Bool.false_ne_true
  · cases heq
    exact hd property key offset hexpects

theorem Draft.Finds.ne_lexical {d : Draft} {fault : LexicalFault} :
    ¬ d.Finds (.lexical fault) := by
  rintro (hlocal | ⟨_, _, _, ⟨⟩, _⟩)
  exact Bool.false_ne_true hlocal

theorem tracks (names : PrefixMap) : (grammar names).Tracks Draft.Holds where
  mono := fun himp hd property written offset hexpects =>
    himp _ _ (hd property written offset hexpects)
  start := fun _ => nofun
  step := fun _ hx h => Draft.holds_of_step hx h
  step_error := fun hd h => hd.of_finds (Draft.finds_of_step h)
  finish_error := fun hd h => hd.of_finds (Draft.finds_of_finish h)

theorem faultless (names : PrefixMap) : (grammar names).Faultless where
  step := fun h => (Draft.finds_of_step h).ne_lexical
  finish := fun h => (Draft.finds_of_finish h).ne_lexical

end SortKey

end ResourceQuery
