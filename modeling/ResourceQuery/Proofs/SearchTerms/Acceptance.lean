import ResourceQuery.Proofs.Parser.Run
import ResourceQuery.SearchTerms

/-!
# Search clauses that are accepted

A search clause is one phrase or more, each a string, with one comma between any two. What a draft
demands of the tokens to come is a list of phrases behind those it has, with a comma before each of
them where a separator is to come; a token is accepted just where it begins such a list.
-/

namespace ResourceQuery.SearchTerms

set_option autoImplicit false

variable {t : Token} {ts : List Token} {phrases earlier result : List String} {d : Draft}
  {text : String}

/-- The tokens of phrases with commas between them. -/
def clause (phrases : List String) : List Token :=
  [Token.mark .comma].intercalate (phrases.map fun body => [.quoted body])

/-- The tokens of phrases that each follow a comma. -/
def later (phrases : List String) : List Token :=
  phrases.flatMap fun body => [.mark .comma, .quoted body]

theorem clause_cons (body : String) (phrases : List String) :
    clause (body :: phrases) = .quoted body :: later phrases := by
  rw [clause, List.map_cons, intercalate_singleton_cons, List.flatMap_map, later,
    List.singleton_append]

namespace Draft

/-- What a draft demands of the tokens to come if they are to make `result` of it. -/
def Demands (d : Draft) (ts : List Token) (result : List String) : Prop :=
  match d.expects with
  | .phrases | .phrase => ∃ body after, ts = .quoted body :: later after ∧
    result = d.phrases.reverse ++ body :: after
  | .separator => ∃ after, ts = later after ∧ result = d.phrases.reverse ++ after

theorem demands_nil_iff : d.Demands [] result ↔ d.finish = .ok result := by
  obtain ⟨earlier, expects⟩ := d
  cases expects with
  | phrases | phrase =>
    constructor
    · rintro ⟨body, after, ⟨⟩, _⟩
    · nofun
  | separator =>
    constructor
    · rintro ⟨_ | ⟨body, after⟩, h, rfl⟩
      · rw [List.append_nil]
        rfl
      · cases h
    · rintro ⟨⟩
      exact ⟨[], rfl, (List.append_nil _).symm⟩

theorem step_separator_eq_ok_iff {d' : Draft} : step ⟨earlier, .separator⟩ t = .ok d' ↔
    t = .mark .comma ∧ d' = ⟨earlier, .phrase⟩ := by
  constructor
  · intro h
    simp only [step] at h
    split at h <;> cases h
    exact ⟨rfl, rfl⟩
  · rintro ⟨rfl, rfl⟩
    rfl

/-- The first phrase is taken as every other one is. -/
theorem step_phrase_eq_ok_iff {d d' : Draft} (hd : d.expects ≠ .separator) :
    d.step t = .ok d' ↔ ∃ body, t = .quoted body ∧ d' = ⟨body :: d.phrases, .separator⟩ := by
  obtain ⟨earlier, expects⟩ := d
  cases expects with
  | separator => exact absurd rfl hd
  | phrases | phrase =>
    constructor
    · intro h
      simp only [step] at h
      split at h <;> cases h
      exact ⟨_, rfl, rfl⟩
    · rintro ⟨body, rfl, rfl⟩
      rfl

theorem demands_phrase_cons_iff {d : Draft} (hd : d.expects ≠ .separator) :
    d.Demands (t :: ts) result ↔ ∃ d', d.step t = .ok d' ∧ d'.Demands ts result := by
  simp only [step_phrase_eq_ok_iff hd]
  obtain ⟨earlier, expects⟩ := d
  cases expects with
  | separator => exact absurd rfl hd
  | phrases | phrase =>
    constructor
    · rintro ⟨body, after, ⟨⟩, rfl⟩
      refine ⟨_, ⟨body, rfl, rfl⟩, after, rfl, ?_⟩
      rw [List.reverse_cons, List.append_assoc, List.singleton_append]
    · rintro ⟨_, ⟨body, rfl, rfl⟩, after, rfl, rfl⟩
      refine ⟨body, after, rfl, ?_⟩
      rw [List.reverse_cons, List.append_assoc, List.singleton_append]

theorem demands_cons_iff :
    d.Demands (t :: ts) result ↔ ∃ d', d.step t = .ok d' ∧ d'.Demands ts result := by
  obtain ⟨earlier, expects⟩ := d
  cases expects with
  | phrases | phrase => exact demands_phrase_cons_iff nofun
  | separator =>
    simp only [step_separator_eq_ok_iff]
    constructor
    · rintro ⟨_ | ⟨body, after⟩, h, rfl⟩
      · cases h
      · cases h
        exact ⟨_, ⟨rfl, rfl⟩, body, after, rfl, rfl⟩
    · rintro ⟨_, ⟨rfl, rfl⟩, body, after, rfl, rfl⟩
      exact ⟨body :: after, rfl, rfl⟩

theorem feed_eq_ok_iff : feed step finish d ts = .ok result ↔ d.Demands ts result :=
  feed_eq_ok_iff_demands (Demands · · result) (fun _ => demands_nil_iff)
    fun _ _ _ => demands_cons_iff

end Draft

theorem parse_eq_ok_iff : parse text = .ok phrases ↔
    phrases ≠ [] ∧ tokenize text = .ok (clause phrases) := by
  have hfeed : parse text = .ok phrases ↔
      ∃ ts, tokenize text = .ok ts ∧ Draft.Demands ⟨[], .phrases⟩ ts phrases := by
    simp only [← Draft.feed_eq_ok_iff]
    exact Grammar.parse_eq_ok_iff_tokenize fun _ _ => rfl
  rw [hfeed]
  constructor
  · rintro ⟨_, hts, body, after, rfl, rfl⟩
    refine ⟨List.cons_ne_nil _ _, ?_⟩
    rw [List.reverse_nil, List.nil_append, clause_cons]
    exact hts
  · rintro ⟨hne, hts⟩
    obtain ⟨body, after, rfl⟩ := List.exists_cons_of_ne_nil hne
    rw [clause_cons] at hts
    exact ⟨_, hts, body, after, rfl, rfl⟩

end ResourceQuery.SearchTerms
