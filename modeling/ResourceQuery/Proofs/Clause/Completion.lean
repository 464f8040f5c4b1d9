import ResourceQuery.Proofs.Clause.Grammars
import ResourceQuery.Proofs.Lexer.Spelling

/-!
# What has been read of a clause can be finished

From each state of each grammar some well-formed tokens lead to a clause that is accepted: the
state is brought to the end of what it is reading, and then each open block is closed. Where a
name has to come it takes one that is bound, and a clause that is accepted shows that there is
one.
-/

namespace ResourceQuery

set_option autoImplicit false

variable {σ α : Type} {g : Grammar σ α} {s s' : σ} {a : α} {t : Token} {ts : List Token}
  {names : PrefixMap}

namespace Grammar

/-- Some well-formed tokens make a clause of the state. -/
def Completable (g : Grammar σ α) (s : σ) : Prop :=
  ∃ ts a, (∀ t ∈ ts, t.WellFormed) ∧ g.accepts? s ts = some a

theorem completable_of_finish (h : g.finish s = .ok a) : g.Completable s := by
  refine ⟨[], a, nofun, ?_⟩
  rw [accepts?_nil, h]
  rfl

theorem completable_of_step (ht : t.WellFormed) (h : g.stepToken s t = .ok s')
    (hs' : g.Completable s') : g.Completable s := by
  obtain ⟨ts, a, hts, haccepts⟩ := hs'
  refine ⟨t :: ts, a, List.forall_mem_cons.mpr ⟨ht, hts⟩, ?_⟩
  rw [accepts?_cons_ok h, haccepts]

end Grammar

open Grammar Token

theorem wellFormed_name_a : (Token.name "a").WellFormed := by
  have hword : IsWord "a".toList := by decide +kernel
  exact ⟨hword, by decide⟩

theorem wellFormed_uri_a : (Token.uri "a").WellFormed := by
  refine ⟨by decide, ?_, by decide⟩
  exact List.forall_mem_singleton.mpr (by decide)

theorem wellFormed_number_zero : (Token.number "0").WellFormed := by
  apply IsNumeral.whole
  exact ⟨by decide, List.forall_mem_singleton.mpr (by decide)⟩

/-- Some well-formed token is a name wherever one has to come. -/
def PrefixMap.Usable (names : PrefixMap) : Prop :=
  ∃ t q, t.WellFormed ∧ ∀ wanted, names.qualify wanted t = .ok q

theorem PrefixMap.usable_of_qualify {wanted : Expectation} {q : QualifiedName}
    (ht : t.WellFormed) (h : names.qualify wanted t = .ok q) : names.Usable := by
  refine ⟨t, q, ht, ?_⟩
  intro wanted'
  unfold qualify at h ⊢
  split at h
  · exact h
  · cases h

namespace PrefixMap

theorem completable (d : Draft) : grammar.Completable d := by
  have hseparator : ∀ m, grammar.Completable ⟨m, .separator⟩ := fun _ => completable_of_finish rfl
  have hspace : ∀ m pfx, grammar.Completable ⟨m, .space pfx⟩ := fun _ _ =>
    completable_of_step wellFormed_uri_a rfl (hseparator _)
  have hequals : ∀ m pfx, grammar.Completable ⟨m, .equals pfx⟩ := fun m pfx =>
    completable_of_step (t := .comparison .eq) trivial rfl (hspace m pfx)
  obtain ⟨m, expects⟩ := d
  cases expects with
  | definitions => exact completable_of_finish rfl
  | definition => exact completable_of_step wellFormed_name_a rfl (hequals m "a")
  | equals pfx => exact hequals m pfx
  | space pfx => exact hspace m pfx
  | separator => exact hseparator m

end PrefixMap

namespace SearchTerms

theorem completable (d : Draft) : grammar.Completable d := by
  have hseparator : ∀ phrases, grammar.Completable ⟨phrases, .separator⟩ := fun _ =>
    completable_of_finish rfl
  obtain ⟨phrases, expects⟩ := d
  cases expects with
  | phrases | phrase =>
    exact completable_of_step (t := .quoted "") IsBody.nil rfl (hseparator _)
  | separator => exact hseparator phrases

end SearchTerms

namespace Property

variable {enclosing : List (Head × List Property)} {properties : List Property}

theorem completable_separator : (grammar names).Completable ⟨enclosing, properties, .separator⟩ := by
  induction enclosing generalizing properties with
  | nil => exact completable_of_finish rfl
  | cons block outer ih => exact completable_of_step (t := .mark .closeBrace) trivial rfl ih

theorem completable_block (head : Head) :
    (grammar names).Completable ⟨enclosing, properties, .block head⟩ := by
  cases enclosing with
  | nil => exact completable_of_finish rfl
  | cons block outer =>
    exact completable_of_step (t := .mark .closeBrace) trivial rfl completable_separator

theorem completable (names : PrefixMap) (d : Draft) : (grammar names).Completable d := by
  obtain ⟨enclosing, properties, expects⟩ := d
  cases expects with
  | property => exact completable_of_step (t := .mark .star) trivial rfl (completable_block none)
  | block head => exact completable_block head
  | separator => exact completable_separator

end Property

namespace Term

variable {enclosing : List (QualifiedName × List Term)} {terms : List Term}
  {property : QualifiedName}

theorem completable_conjunction :
    (grammar names).Completable ⟨enclosing, terms, .conjunction⟩ := by
  induction enclosing generalizing terms with
  | nil => exact completable_of_finish rfl
  | cons block outer ih => exact completable_of_step (t := .mark .closeBrace) trivial rfl ih

theorem completable_separator {operands : List Value} :
    (grammar names).Completable ⟨enclosing, terms, .separator property operands⟩ :=
  completable_of_step (t := .mark .closeBracket) trivial rfl completable_conjunction

theorem completable_place {d : Draft} {v : Value} (slot : Slot) :
    (grammar names).Completable (d.place v slot) := by
  cases slot with
  | comparison property relation => exact completable_conjunction
  | membership property earlier => exact completable_separator

theorem completable_operand (slot : Slot) :
    (grammar names).Completable ⟨enclosing, terms, .operand slot⟩ :=
  completable_of_step (t := .boolean true) trivial rfl (completable_place slot)

/-- A string ends where the block or the list around it does. -/
theorem completable_qualifier (slot : Slot) (body : String) :
    (grammar names).Completable ⟨enclosing, terms, .qualifier slot body⟩ := by
  cases slot with
  | membership property earlier =>
    exact completable_of_step (t := .mark .closeBracket) trivial rfl completable_conjunction
  | comparison property relation =>
    cases enclosing with
    | nil => exact completable_of_finish rfl
    | cons block outer =>
      exact completable_of_step (t := .mark .closeBrace) trivial rfl completable_conjunction

theorem completable_magnitude (slot : Slot) (negative : Bool) :
    (grammar names).Completable ⟨enclosing, terms, .magnitude slot negative⟩ := by
  have hzero : Decimal.ofDigits negative "0".toList =
      .ok ⟨negative, 0, 0, by decide, by decide⟩ := by
    cases negative <;> rfl
  have hstep : (grammar names).stepToken ⟨enclosing, terms, .magnitude slot negative⟩ (.number "0") =
      .ok (Draft.place ⟨enclosing, terms, .magnitude slot negative⟩
        (.decimal ⟨negative, 0, 0, by decide, by decide⟩) slot) := by
    simp only [stepToken, grammar, Draft.step, Draft.placeNumber, hzero]
  exact completable_of_step wellFormed_number_zero hstep (completable_place slot)

theorem completable_operator :
    (grammar names).Completable ⟨enclosing, terms, .operator property⟩ :=
  completable_of_step (t := .comparison .eq) trivial rfl (completable_operand _)

theorem completable (hnames : names.Usable) (d : Draft) : (grammar names).Completable d := by
  obtain ⟨n, q, hn, hq⟩ := hnames
  obtain ⟨enclosing, terms, expects⟩ := d
  cases expects with
  | term =>
    have hstep : (grammar names).stepToken ⟨enclosing, terms, .term⟩ n =
        .ok ⟨enclosing, terms, .operator q⟩ := by
      simp only [stepToken, grammar, Draft.step, hq, Draft.await]
    exact completable_of_step hn hstep completable_operator
  | operator property => exact completable_operator
  | list property =>
    exact completable_of_step (t := .mark .openBracket) trivial rfl (completable_operand _)
  | operand slot => exact completable_operand slot
  | magnitude slot negative => exact completable_magnitude slot negative
  | qualifier slot body => exact completable_qualifier slot body
  | datatype slot body =>
    have hstep : (grammar names).stepToken ⟨enclosing, terms, .datatype slot body⟩ n =
        .ok (Draft.place ⟨enclosing, terms, .datatype slot body⟩ (.typed body q) slot) := by
      simp only [stepToken, grammar, Draft.step, hq]
    exact completable_of_step hn hstep (completable_place slot)
  | separator property operands => exact completable_separator
  | conjunction => exact completable_conjunction

theorem usable_of_accepts? {result : List Term} (hts : ∀ t ∈ ts, t.WellFormed)
    (h : (grammar names).accepts? (grammar names).start ts = some result) : names.Usable := by
  cases ts with
  | nil => cases h
  | cons t ts =>
    obtain ⟨d, hstep, _⟩ := accepts?_cons_eq_some_iff.mp h
    have hstep' : Draft.step names ⟨[], [], .term⟩ t = .ok d := hstep
    unfold Draft.step at hstep'
    simp only at hstep'
    split at hstep'
    · rename_i hq
      exact PrefixMap.usable_of_qualify (hts t List.mem_cons_self) hq
    · cases hstep'

end Term

namespace SortKey

variable {enclosing : List (Direction × QualifiedName × List SortKey)} {keys : List SortKey}

theorem completable_separator : (grammar names).Completable ⟨enclosing, keys, .separator⟩ := by
  induction enclosing generalizing keys with
  | nil => exact completable_of_finish rfl
  | cons group outer ih => exact completable_of_step (t := .mark .closeBrace) trivial rfl ih

theorem completable_block (direction : Direction) (property : QualifiedName) :
    (grammar names).Completable ⟨enclosing, keys, .block direction property⟩ := by
  cases enclosing with
  | nil => exact completable_of_finish rfl
  | cons group outer =>
    exact completable_of_step (t := .mark .closeBrace) trivial rfl completable_separator

theorem completable_property (hnames : names.Usable) (direction : Direction) :
    (grammar names).Completable ⟨enclosing, keys, .property direction⟩ := by
  obtain ⟨n, q, hn, hq⟩ := hnames
  have hstep : (grammar names).stepToken ⟨enclosing, keys, .property direction⟩ n =
      .ok ⟨enclosing, keys, .block direction q⟩ := by
    simp only [stepToken, grammar, Draft.step, hq]
  exact completable_of_step hn hstep (completable_block direction q)

theorem completable (hnames : names.Usable) (d : Draft) : (grammar names).Completable d := by
  have hkey : ∀ enclosing keys, (grammar names).Completable ⟨enclosing, keys, .key⟩ :=
    fun _ _ => completable_of_step (t := .mark .plus) trivial rfl (completable_property hnames _)
  obtain ⟨enclosing, keys, expects⟩ := d
  cases expects with
  | key => exact hkey enclosing keys
  | property direction => exact completable_property hnames direction
  | block direction property => exact completable_block direction property
  | group property written offset =>
    exact completable_of_step (t := .mark .openBrace) trivial rfl (hkey _ _)
  | separator => exact completable_separator

theorem usable_of_accepts? {result : List SortKey} (hts : ∀ t ∈ ts, t.WellFormed)
    (h : (grammar names).accepts? (grammar names).start ts = some result) : names.Usable := by
  cases ts with
  | nil => cases h
  | cons t ts =>
    obtain ⟨ht, hts⟩ := List.forall_mem_cons.mp hts
    obtain ⟨d, hstep, hd⟩ := accepts?_cons_eq_some_iff.mp h
    have hsigned : ∀ direction, d = ⟨[], [], .property direction⟩ → names.Usable := by
      rintro direction rfl
      cases ts with
      | nil => cases hd
      | cons u us =>
        obtain ⟨d', hstep', _⟩ := accepts?_cons_eq_some_iff.mp hd
        simp only [stepToken, grammar, Draft.step] at hstep'
        split at hstep'
        · rename_i hq
          exact PrefixMap.usable_of_qualify (hts u List.mem_cons_self) hq
        · cases hstep'
    have hstep' : Draft.step names ⟨[], [], .key⟩ ⟨t, "", 0⟩ = .ok d := hstep
    unfold Draft.step at hstep'
    simp only at hstep'
    split at hstep'
    · cases hstep'
      exact hsigned _ rfl
    · cases hstep'
      exact hsigned _ rfl
    · split at hstep'
      · rename_i hq
        exact PrefixMap.usable_of_qualify ht hq
      · cases hstep'

end SortKey

/-- What the grammars of all clauses have in common. -/
structure Grammar.Regular (g : Grammar σ α) : Prop where
  forgets : ∃ forget, g.ForgetsPlaces forget
  tracks : ∃ holds, g.Tracks holds
  faultless : g.Faultless
  completable : ∀ {text a}, g.parse text = .ok a → ∀ s, g.Completable s

theorem Grammar.ForgetsPlaces.wellFormed_of_parse {forget : σ → σ} (hg : g.ForgetsPlaces forget)
    {text : String} (h : g.parse text = .ok a) :
    ∃ ts, (∀ t ∈ ts, t.WellFormed) ∧ g.accepts? g.start ts = some a := by
  obtain ⟨ts, hts, haccepts⟩ := hg.parse_eq_ok_iff.mp h
  exact ⟨ts, (tokenize_eq_ok_iff.mp hts).wellFormed, haccepts⟩

theorem Term.regular (names : PrefixMap) : (grammar names).Regular where
  forgets := ⟨id, forgetsPlaces names⟩
  tracks := ⟨_, (isLocal names).tracks⟩
  faultless := (isLocal names).faultless
  completable := by
    intro text a h
    obtain ⟨ts, hts, haccepts⟩ := (forgetsPlaces names).wellFormed_of_parse h
    exact completable (usable_of_accepts? hts haccepts)

theorem SortKey.regular (names : PrefixMap) : (grammar names).Regular where
  forgets := ⟨Draft.forget, forgetsPlaces names⟩
  tracks := ⟨Draft.Holds, tracks names⟩
  faultless := faultless names
  completable := by
    intro text a h
    obtain ⟨ts, hts, haccepts⟩ := (forgetsPlaces names).wellFormed_of_parse h
    exact completable (usable_of_accepts? hts haccepts)

theorem PrefixMap.regular : grammar.Regular :=
  ⟨⟨id, forgetsPlaces⟩, ⟨_, isLocal.tracks⟩, isLocal.faultless, fun _ => completable⟩

theorem SearchTerms.regular : grammar.Regular :=
  ⟨⟨id, forgetsPlaces⟩, ⟨_, isLocal.tracks⟩, isLocal.faultless, fun _ => completable⟩

theorem Property.regular (names : PrefixMap) : (grammar names).Regular :=
  ⟨⟨id, forgetsPlaces names⟩, ⟨_, (isLocal names).tracks⟩, (isLocal names).faultless,
    fun _ => completable names⟩

/-- What holds of all regular grammars holds of the readers of all clauses. -/
theorem Clause.exists_grammar (names : PrefixMap) (clause : Clause) :
    ∃ (σ α : Type) (g : Grammar σ α) (f : α → Tree), g.Regular ∧
      (∀ text, clause.parse names text = (g.parse text).map f) ∧
      ∀ p, clause.read names p = (p.read g).map (·.map f) id := by
  cases clause with
  | prefixes => exact ⟨_, _, PrefixMap.grammar, _, PrefixMap.regular, fun _ => rfl, fun _ => rfl⟩
  | condition =>
    exact ⟨_, _, Term.grammar names, _, Term.regular names, fun _ => rfl, fun _ => rfl⟩
  | select | properties =>
    exact ⟨_, _, Property.grammar names, _, Property.regular names, fun _ => rfl, fun _ => rfl⟩
  | orderBy =>
    exact ⟨_, _, SortKey.grammar names, _, SortKey.regular names, fun _ => rfl, fun _ => rfl⟩
  | searchTerms =>
    exact ⟨_, _, SearchTerms.grammar, _, SearchTerms.regular, fun _ => rfl, fun _ => rfl⟩

end ResourceQuery
