import ResourceQuery.Proofs.Clause.Grammars
import ResourceQuery.Proofs.PrefixMap.Bindings

/-!
# The prefixes that a clause depends on

A clause looks a prefix up only when it takes a name that is written with it. So two maps that
resolve the prefixes of the names in a text alike make the same of the text, be it a tree or an
error: each step of a grammar is the same under both, and hence every run of it. Names behind the
first lexical fault are never reached and do not count.
-/

namespace ResourceQuery

set_option autoImplicit false

variable {σ α : Type} {names names' : PrefixMap} {t : Token} {text : List Char} {spans : List Span}
  {ending : Except LexError Lexer}

/-- The prefix that a name is written with. -/
def Token.pfx? : Token → Option String
  | prefixed pfx _ => some pfx
  | _ => none

/-- The prefixes of the names in a text, up to its first fault. -/
def usedPrefixes (text : String) : List String :=
  (Lexer.ofString text).spans.filterMap fun span => span.token.pfx?

/-- The maps resolve the prefix of the token alike, if it has one. -/
def PrefixMap.AlikeAt (names names' : PrefixMap) (t : Token) : Prop :=
  ∀ pfx ∈ t.pfx?, names.resolve pfx = names'.resolve pfx

namespace PrefixMap.AlikeAt

theorem qualify_eq (h : names.AlikeAt names' t) (wanted : Expectation) :
    names.qualify wanted t = names'.qualify wanted t := by
  cases t with
  | prefixed pfx localName =>
    have hresolve := h pfx rfl
    simp only [qualify, hresolve]
  | _ => rfl

theorem step_term (h : names.AlikeAt names' t) (d : Term.Draft) :
    d.step names t = d.step names' t := by
  obtain ⟨enclosing, terms, expects⟩ := d
  cases expects with
  | term | datatype _ _ => simp only [Term.Draft.step, h.qualify_eq]
  | _ => rfl

theorem step_property (h : names.AlikeAt names' t) (d : Property.Draft) :
    d.step names t = d.step names' t := by
  obtain ⟨enclosing, properties, expects⟩ := d
  cases expects with
  | property => simp only [Property.Draft.step, h.qualify_eq]
  | _ => rfl

theorem step_sortKey {x : Lexeme} (h : names.AlikeAt names' x.token) (d : SortKey.Draft) :
    d.step names x = d.step names' x := by
  obtain ⟨enclosing, keys, expects⟩ := d
  cases expects with
  | key =>
    simp only [SortKey.Draft.step]
    split
    · rfl
    · rfl
    · rw [h.qualify_eq]
  | property direction => simp only [SortKey.Draft.step, h.qualify_eq]
  | _ => rfl

end PrefixMap.AlikeAt

theorem Grammar.run_congr {g g' : Grammar σ α} (hfinish : g.finish = g'.finish)
    (hstep : ∀ span ∈ spans, ∀ s, g.step s (span.lexeme text) = g'.step s (span.lexeme text))
    (s : σ) : g.run text ending s spans = g'.run text ending s spans := by
  induction spans generalizing s with
  | nil => simp only [run, hfinish]
  | cons span spans ih =>
    obtain ⟨hfirst, hlater⟩ := List.forall_mem_cons.mp hstep
    simp only [run, hfirst s, ih hlater]

/-- Grammars that do the same with each token of a text read it alike. -/
theorem Grammar.parse_congr {g g' : Grammar σ α} {text : String} (hstart : g.start = g'.start)
    (hfinish : g.finish = g'.finish)
    (hstep : ∀ span ∈ (Lexer.ofString text).spans, ∀ s x, x.token = span.token →
      g.step s x = g'.step s x) : g.parse text = g'.parse text := by
  rw [parse_eq_run, parse_eq_run, hstart]
  exact run_congr hfinish (fun span hspan s => hstep span hspan s _ rfl) _

theorem Clause.parse_eq_of_alikeAt (clause : Clause) {text : String}
    (h : ∀ span ∈ (Lexer.ofString text).spans, names.AlikeAt names' span.token) :
    clause.parse names text = clause.parse names' text := by
  have hx : ∀ span ∈ (Lexer.ofString text).spans, ∀ x : Lexeme, x.token = span.token →
      names.AlikeAt names' x.token := fun span hspan x hx => hx ▸ h span hspan
  cases clause with
  | prefixes | searchTerms => rfl
  | condition =>
    have hparse : Term.parse names text = Term.parse names' text :=
      Grammar.parse_congr rfl rfl fun span hspan d x hx' => (hx span hspan x hx').step_term d
    simp only [parse, hparse]
  | select | properties =>
    have hparse : Property.parse names text = Property.parse names' text :=
      Grammar.parse_congr rfl rfl fun span hspan d x hx' => (hx span hspan x hx').step_property d
    simp only [parse, hparse]
  | orderBy =>
    have hparse : SortKey.parse names text = SortKey.parse names' text :=
      Grammar.parse_congr rfl rfl fun span hspan d x hx' => (hx span hspan x hx').step_sortKey d
    simp only [parse, hparse]

theorem alikeAt_of_usedPrefixes {text : String}
    (h : ∀ pfx ∈ usedPrefixes text, names.resolve pfx = names'.resolve pfx) :
    ∀ span ∈ (Lexer.ofString text).spans, names.AlikeAt names' span.token :=
  fun span hspan pfx hpfx => h pfx (List.mem_filterMap.mpr ⟨span, hspan, hpfx⟩)

/-- What is made of a text depends on the namespaces of the prefixes that it uses alone. So a
binding of another prefix can be left out, or one that is replaced later, and prefixes that are
bound once can be bound in any order. -/
theorem Clause.parse_depends_on_used_prefixes (clause : Clause) (text : String) :
    (∀ names names' : PrefixMap,
      (∀ pfx ∈ usedPrefixes text, names.resolve pfx = names'.resolve pfx) →
        clause.parse names text = clause.parse names' text) ∧
    (∀ earlier later pfx space, pfx ∉ usedPrefixes text ∨ pfx ∈ later.map Prod.fst →
      clause.parse (.ofList (earlier ++ (pfx, space) :: later)) text =
        clause.parse (.ofList (earlier ++ later)) text) ∧
    ∀ pairs pairs' : List (String × String), (pairs.map Prod.fst).Nodup → pairs.Perm pairs' →
      clause.parse (.ofList pairs) text = clause.parse (.ofList pairs') text := by
  have hmain : ∀ names names' : PrefixMap,
      (∀ pfx ∈ usedPrefixes text, names.resolve pfx = names'.resolve pfx) →
        clause.parse names text = clause.parse names' text :=
    fun names names' h => clause.parse_eq_of_alikeAt (alikeAt_of_usedPrefixes h)
  refine ⟨hmain, ?_, ?_⟩
  · intro earlier later pfx space hpfx
    apply hmain
    intro used hused
    rw [(PrefixMap.holds_ofList _).latest, (PrefixMap.holds_ofList _).latest]
    apply lookup_reverse_of_superseded
    rintro rfl
    exact hpfx.resolve_left fun hunused => hunused hused
  · intro pairs pairs' hnodup hperm
    apply hmain
    intro used _
    have hnodup' : (pairs.reverse.map Prod.fst).Nodup :=
      ((pairs.reverse_perm.map Prod.fst).nodup_iff).mpr hnodup
    rw [(PrefixMap.holds_ofList _).latest, (PrefixMap.holds_ofList _).latest]
    exact lookup_eq_of_perm hnodup' (pairs.reverse_perm.trans (hperm.trans pairs'.reverse_perm.symm))

/-- Nothing that is not used or replaced later matters, and an unbound prefix stays unbound. -/
theorem Clause.parse_depends_on_used_prefixes_rebound :
    let text := "p:a=\"x\"^^q:t and p:b\x7br:c=1\x7d"
    let read := fun pairs => Clause.condition.parse (.ofList pairs) text
    read [("p", "http://e/"), ("s", "u"), ("q", "old"), ("q", "http://f/")] =
        read [("p", "http://e/"), ("q", "http://f/")] ∧
      read [("p", "http://e/"), ("q", "http://f/")] = read [("q", "http://f/"), ("p", "http://e/")] ∧
      read [("q", "http://f/"), ("p", "http://e/")] =
        read [("t", "w"), ("q", "http://f/"), ("p", "http://e/"), ("t", "z")] ∧
      read [("t", "w"), ("q", "http://f/"), ("p", "http://e/"), ("t", "z")] =
        .error ⟨.unresolved "r" "c", "r:c", 21⟩ := by
  intro text read
  have hused : usedPrefixes text = ["p", "q", "p", "r"] := by decide +kernel
  obtain ⟨halike, hleave, hperm⟩ := Clause.parse_depends_on_used_prefixes .condition text
  refine ⟨?_, ?_, ?_, ?_⟩
  · have hunused := hleave [("p", "http://e/")] [("q", "old"), ("q", "http://f/")] "s" "u"
      (Or.inl (by rw [hused]; decide))
    have hreplaced := hleave [("p", "http://e/")] [("q", "http://f/")] "q" "old"
      (Or.inr (by decide))
    exact hunused.trans hreplaced
  · exact hperm _ _ (by decide) (List.Perm.swap _ _ _)
  · apply halike
    rw [hused]
    decide
  · have herror : (read [("t", "w"), ("q", "http://f/"), ("p", "http://e/"), ("t", "z")]).map
        (fun _ => ()) = .error ⟨.unresolved "r" "c", "r:c", 21⟩ := by decide +kernel
    exact map_eq_error_iff.mp herror

end ResourceQuery
