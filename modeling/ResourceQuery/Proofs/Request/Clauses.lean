import ResourceQuery.Proofs.Clause.Grammars
import ResourceQuery.Proofs.PrefixMap.Bindings
import ResourceQuery.Proofs.Request.Reading

/-!
# The clauses of a request by themselves

A request holds the last value that its pairs give for each clause. Reading it is reading its
clauses one after another, each as it is read by itself under the prefixes that the request
declares: the first clause that fails is the failure of the request, and if none does the query
holds what each of them says.
-/

namespace ResourceQuery

set_option autoImplicit false

variable {α β ε : Type} {pairs pairs' : List (String × String)} {k k' v v' : String} {r r' : Request}
  {q : Query} {clause : Clause} {x : ParseError}

/-- Of the values that the pairs give for the key, `v` is the last. -/
def IsLast (pairs : List (String × String)) (k v : String) : Prop :=
  ∃ before after, pairs = before ++ (k, v) :: after ∧ k ∉ after.map Prod.fst

theorem isLast_concat_iff :
    IsLast (pairs ++ [(k', v')]) k v ↔ k = k' ∧ v = v' ∨ k ≠ k' ∧ IsLast pairs k v := by
  constructor
  · rintro ⟨before, after, heq, hafter⟩
    rcases List.eq_nil_or_concat after with rfl | ⟨after', p, rfl⟩
    · obtain ⟨_, hlast⟩ := List.append_inj' heq rfl
      cases hlast
      exact Or.inl ⟨rfl, rfl⟩
    · rw [List.concat_eq_append] at heq hafter
      rw [← List.cons_append, ← List.append_assoc] at heq
      obtain ⟨rfl, hlast⟩ := List.append_inj' heq rfl
      cases hlast
      rw [List.map_append, List.mem_append, not_or] at hafter
      exact Or.inr ⟨fun hk => hafter.2 (List.mem_singleton.mpr hk), before, after', rfl, hafter.1⟩
  · rintro (⟨rfl, rfl⟩ | ⟨hne, before, after, rfl, hafter⟩)
    · exact ⟨pairs, [], rfl, List.not_mem_nil⟩
    · refine ⟨before, after ++ [(k', v')], by simp, ?_⟩
      rw [List.map_append, List.mem_append, not_or]
      exact ⟨hafter, fun hk => hne (List.mem_singleton.mp hk)⟩

theorem not_isLast_nil : ¬ IsLast [] k v := by
  rintro ⟨before, after, h, _⟩
  simp at h

theorem Clause.ofParameter?_eq_some_iff {parameter : String} :
    ofParameter? parameter = some clause ↔ clause.parameter = parameter := by
  constructor
  · intro h
    unfold ofParameter? at h
    split at h <;> cases h <;> rfl
  · rintro rfl
    cases clause <;> rfl

theorem Clause.parameter_injective : Function.Injective parameter := by
  intro clause clause' h
  rw [← ofParameter?_eq_some_iff, ofParameter?_eq_some_iff.mpr rfl] at h
  exact (Option.some.inj h).symm

namespace Request

/-- The text of a clause, if the request has the clause. -/
def given (r : Request) : Clause → Option String
  | .prefixes => r.prefixes
  | .condition => r.condition
  | .select => r.select
  | .properties => r.properties
  | .orderBy => r.orderBy
  | .searchTerms => r.searchTerms

theorem ext_given (h : ∀ clause, r.given clause = r'.given clause) : r = r' := by
  obtain ⟨_, _, _, _, _, _⟩ := r
  obtain ⟨_, _, _, _, _, _⟩ := r'
  cases h .prefixes
  cases h .condition
  cases h .select
  cases h .properties
  cases h .orderBy
  cases h .searchTerms
  rfl

@[simp] theorem given_empty (clause : Clause) : empty.given clause = none := by
  cases clause <;> rfl

theorem given_assign (r : Request) (text : String) (clause clause' : Clause) :
    (r.assign text clause).given clause' =
      if clause' = clause then some text else r.given clause' := by
  cases clause <;> cases clause' <;> rfl

theorem given_addPair (r : Request) (k v : String) (clause : Clause) :
    (r.addPair (k, v)).given clause =
      if clause.parameter = k then some v else r.given clause := by
  cases h : Clause.ofParameter? k with
  | none =>
    have hne : clause.parameter ≠ k := by
      intro heq
      rw [Clause.ofParameter?_eq_some_iff.mpr heq] at h
      cases h
    simp only [addPair, h, if_neg hne]
  | some carried =>
    obtain rfl := Clause.ofParameter?_eq_some_iff.mp h
    simp only [addPair, h, given_assign, Clause.parameter_injective.eq_iff]

theorem ofPairs_concat (pairs : List (String × String)) (pair : String × String) :
    ofPairs (pairs ++ [pair]) = (ofPairs pairs).addPair pair := List.foldl_concat ..

theorem given_ofPairs_eq_some_iff :
    (ofPairs pairs).given clause = some v ↔ IsLast pairs clause.parameter v := by
  induction pairs using List.reverseRecOn with
  | nil => simp [ofPairs, not_isLast_nil]
  | append_singleton pairs pair ih =>
    obtain ⟨k', v'⟩ := pair
    rw [ofPairs_concat, given_addPair, isLast_concat_iff]
    by_cases h : clause.parameter = k'
    · simp [h, eq_comm]
    · simp [h, ih]

theorem ofPairs_congr (h : ∀ clause : Clause, ∀ v,
    IsLast pairs clause.parameter v ↔ IsLast pairs' clause.parameter v) :
    ofPairs pairs = ofPairs pairs' := by
  apply ext_given
  intro clause
  apply Option.ext
  intro v
  rw [given_ofPairs_eq_some_iff, given_ofPairs_eq_some_iff]
  exact h clause v

/-- The prefixes that hold in the clauses of a request. -/
def names (r : Request) : PrefixMap :=
  match readIfGiven PrefixMap.parse r.prefixes with
  | .ok (some declared) => declared
  | _ => .empty

/-- What a clause of a request is by itself, if the request has the clause. -/
def alone (r : Request) (clause : Clause) : Except ParseError (Option Tree) :=
  readIfGiven (clause.parse r.names) (r.given clause)

end Request

/-- The clauses in the order in which they are read. -/
def Clause.order : List Clause :=
  [.prefixes, .condition, .select, .properties, .orderBy, .searchTerms]

/-- What the query has of a clause; it has always prefixes, which may be none. -/
def Query.tree? (q : Query) : Clause → Option Tree
  | .prefixes => some (.prefixes q.prefixes)
  | .condition => q.condition.map .condition
  | .select => q.select.map .properties
  | .properties => q.properties.map .properties
  | .orderBy => q.orderBy.map .orderBy
  | .searchTerms => q.searchTerms.map .searchTerms

/-- The first of the items that fails, fails with `e`. -/
def FailsFirst (read : α → Except ε β) (items : List α) (e : ε) : Prop :=
  ∃ before item after, items = before ++ item :: after ∧ read item = .error e ∧
    ∀ earlier ∈ before, ∃ b, read earlier = .ok b

theorem failsFirst_nil {read : α → Except ε β} {e : ε} : ¬ FailsFirst read [] e := by
  rintro ⟨before, item, after, h, _⟩
  simp at h

theorem failsFirst_cons {read : α → Except ε β} {item : α} {items : List α} {e : ε} :
    FailsFirst read (item :: items) e ↔
      read item = .error e ∨ (∃ b, read item = .ok b) ∧ FailsFirst read items e := by
  constructor
  · rintro ⟨_ | ⟨first, before⟩, failing, after, heq, herror, hbefore⟩
    · cases heq
      exact Or.inl herror
    · obtain ⟨rfl, rfl⟩ := List.cons.inj heq
      obtain ⟨hfirst, hlater⟩ := List.forall_mem_cons.mp hbefore
      exact Or.inr ⟨hfirst, before, failing, after, rfl, herror, hlater⟩
  · rintro (herror | ⟨hfirst, before, failing, after, rfl, herror, hbefore⟩)
    · exact ⟨[], item, items, rfl, herror, nofun⟩
    · exact ⟨item :: before, failing, after, rfl, herror,
        List.forall_mem_cons.mpr ⟨hfirst, hbefore⟩⟩

theorem failsFirst_iff_of_others_ok {read : α → Except ε β} {item : α} {items : List α} {e : ε}
    (hitem : item ∈ items) (hothers : ∀ other ∈ items, other ≠ item → ∃ b, read other = .ok b) :
    FailsFirst read items e ↔ read item = .error e := by
  constructor
  · rintro ⟨before, failing, after, rfl, herror, _⟩
    by_contra hne
    have hother : failing ≠ item := by
      rintro rfl
      exact hne herror
    obtain ⟨b, hb⟩ := hothers failing (by simp) hother
    rw [hb] at herror
    cases herror
  · intro herror
    obtain ⟨before, after, rfl, hfirst⟩ := List.eq_append_cons_of_mem hitem
    refine ⟨before, item, after, rfl, herror, ?_⟩
    intro earlier hearlier
    apply hothers earlier (List.mem_append_left _ hearlier)
    rintro rfl
    exact hfirst hearlier

namespace Request

theorem readIfGiven_map {parse : String → Except ParseError α} {f : α → β} (given : Option String) :
    readIfGiven (fun text => (parse text).map f) given =
      (readIfGiven parse given).map (Option.map f) := by
  cases given with
  | none => rfl
  | some text => cases h : parse text <;> simp [readIfGiven, h, Except.map]

/-- What a clause of a request is, read by the parser of that clause. -/
def part (r : Request) : Clause → Except ParseError (Option Tree)
  | .prefixes => (readIfGiven PrefixMap.parse r.prefixes).map (Option.map .prefixes)
  | .condition => (readIfGiven (Term.parse r.names) r.condition).map (Option.map .condition)
  | .select => (readIfGiven (Property.parse r.names) r.select).map (Option.map .properties)
  | .properties => (readIfGiven (Property.parse r.names) r.properties).map (Option.map .properties)
  | .orderBy => (readIfGiven (SortKey.parse r.names) r.orderBy).map (Option.map .orderBy)
  | .searchTerms => (readIfGiven SearchTerms.parse r.searchTerms).map (Option.map .searchTerms)

theorem alone_eq_part (r : Request) : r.alone = r.part := by
  funext clause
  cases clause <;> exact readIfGiven_map _

theorem names_eq {declared : Option PrefixMap}
    (h : readIfGiven PrefixMap.parse r.prefixes = .ok declared) :
    r.names = declared.getD .empty := by
  rw [names, h]
  cases declared <;> rfl

/-- A request fails as the first of its clauses that fails. -/
theorem parse_eq_error_iff : r.parse = .error x ↔ FailsFirst r.alone Clause.order x := by
  have hpure : ∀ q : Query, (pure q : Except ParseError Query) ≠ .error x := nofun
  rw [alone_eq_part, Clause.order]
  simp only [failsFirst_cons, part, map_eq_error_iff, exists_map_eq_ok_iff, parse,
    bind_eq_error_iff]
  cases hdeclared : readIfGiven PrefixMap.parse r.prefixes with
  | error e => simp
  | ok declared =>
    rw [names_eq hdeclared]
    simp [hpure, failsFirst_nil]

theorem names_of_parse (h : r.parse = .ok q) : q.prefixes = r.names := by
  obtain ⟨⟨declared, hdeclared, hprefixes⟩, _⟩ := parse_eq_ok_iff.mp h
  rw [hprefixes, names_eq hdeclared]

/-- A request that does not fail holds what each of its clauses is by itself. -/
theorem alone_of_parse (h : r.parse = .ok q) :
    (∃ tree, r.alone .prefixes = .ok tree) ∧
    ∀ clause, clause ≠ .prefixes → r.alone clause = .ok (q.tree? clause) := by
  have hnames := names_of_parse h
  obtain ⟨⟨declared, hdeclared, _⟩, hcondition, hselect, hproperties, horderBy, hsearchTerms⟩ :=
    parse_eq_ok_iff.mp h
  rw [hnames] at hcondition hselect hproperties horderBy
  rw [alone_eq_part]
  refine ⟨exists_map_eq_ok_iff.mpr ⟨declared, hdeclared⟩, ?_⟩
  intro clause hne
  cases clause with
  | prefixes => exact absurd rfl hne
  | condition => rw [part, hcondition]; rfl
  | select => rw [part, hselect]; rfl
  | properties => rw [part, hproperties]; rfl
  | orderBy => rw [part, horderBy]; rfl
  | searchTerms => rw [part, hsearchTerms]; rfl

end Request

end ResourceQuery
