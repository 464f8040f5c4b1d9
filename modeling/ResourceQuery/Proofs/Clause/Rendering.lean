import ResourceQuery.Proofs.Property.Rendering
import ResourceQuery.Proofs.SortKey.Rendering
import ResourceQuery.Selection.Inversion

/-!
# Rendering as a normal form

What a clause is read as can be written, and what can be written is read back from its text. So
the text of what has been read is a normal form of the text that it was read from.
-/

namespace ResourceQuery.Clause

set_option autoImplicit false

variable {α ε : Type} {parse : String → Except ε α} {render : α → String} {Writable : α → Prop}

/-- Whatever is read can be written, and what can be written is read from its text. -/
structure ReadsBack (parse : String → Except ε α) (render : α → String) (Writable : α → Prop) :
    Prop where
  writable_of_parse : ∀ text a, parse text = .ok a → Writable a
  parse_render : ∀ a, Writable a → parse (render a) = .ok a

namespace ReadsBack

theorem render_injOn (h : ReadsBack parse render Writable) {a b : α} (ha : Writable a)
    (hb : Writable b) (heq : render a = render b) : a = b := by
  have hab := h.parse_render b hb
  rw [← heq, h.parse_render a ha] at hab
  exact Except.ok.inj hab

theorem render_eq_iff (h : ReadsBack parse render Writable) {text text' : String} {a b : α}
    (ha : parse text = .ok a) (hb : parse text' = .ok b) : render a = render b ↔ a = b := by
  constructor
  · exact h.render_injOn (h.writable_of_parse _ a ha) (h.writable_of_parse _ b hb)
  · exact congrArg render

end ReadsBack

theorem readsBack_properties (names : PrefixMap) :
    ReadsBack (Property.parse names) Property.clauseText (Property.WritableClause names) :=
  ⟨fun _ _ => Property.writableClause_of_parse, fun _ => Property.parse_clauseText_of_writable⟩

theorem readsBack_keys (names : PrefixMap) :
    ReadsBack (SortKey.parse names) SortKey.clauseText (SortKey.WritableClause names) :=
  ⟨fun _ _ => SortKey.writableClause_of_parse, fun _ => SortKey.parse_clauseText_of_writable⟩

/-- Property lists and order clauses that can be written are read from their texts as they were,
and those that are read can be written. Their texts are normal forms: they differ wherever what
was read differs. A property list that is read back also asks for the same selection. -/
theorem rendering_is_normal_form (names : PrefixMap) :
    ReadsBack (Property.parse names) Property.clauseText (Property.WritableClause names) ∧
    ReadsBack (SortKey.parse names) SortKey.clauseText (SortKey.WritableClause names) ∧
    (∀ text text' ps qs, Property.parse names text = .ok ps → Property.parse names text' = .ok qs →
      (Property.clauseText ps = Property.clauseText qs ↔ ps = qs)) ∧
    (∀ text text' ks ls, SortKey.parse names text = .ok ks → SortKey.parse names text' = .ok ls →
      (SortKey.clauseText ks = SortKey.clauseText ls ↔ ks = ls)) ∧
    ∀ ps, Property.WritableClause names ps →
      (Property.parse names (Property.clauseText ps)).map Selection.ofProperties =
        .ok (Selection.ofProperties ps) := by
  have hproperties := readsBack_properties names
  have hkeys := readsBack_keys names
  refine ⟨hproperties, hkeys, ?_, ?_, ?_⟩
  · intro text text' ps qs hps hqs
    exact hproperties.render_eq_iff hps hqs
  · intro text text' ks ls hks hls
    exact hkeys.render_eq_iff hks hls
  · intro ps hps
    rw [hproperties.parse_render ps hps]
    rfl

theorem rendering_is_normal_form_nested :
    Property.parse (PrefixMap.empty.insert "p" "http://e/") "p:a.b\x7b*\x7bp:c-\x7d,*\x7d" =
      .ok [.nested ⟨"http://e/", "a.b", some "p"⟩
        [.nestedWildcard [.named ⟨"http://e/", "c-", some "p"⟩], .wildcard]] ∧
    SortKey.parse (PrefixMap.empty.insert "p" "http://e/") "+p:a.b\x7b-p:c-\x7d" =
      .ok [.group .ascending ⟨"http://e/", "a.b", some "p"⟩
        [.key .descending ⟨"http://e/", "c-", some "p"⟩]] := by
  have hname : ∀ l ∈ ["a.b", "c-"],
      QualifiedName.Writable (PrefixMap.empty.insert "p" "http://e/") ⟨"http://e/", l, some "p"⟩ := by
    have hpfx : Token.IsWord "p".toList := by decide +kernel
    have hlocal : ∀ l ∈ ["a.b", "c-"], Token.IsLocalName l.toList := by decide +kernel
    intro l hl
    exact ⟨"p", rfl, rfl, Or.inr hpfx, hlocal l hl⟩
  have houter := hname "a.b" (by decide)
  have hinner := hname "c-" (by decide)
  obtain ⟨hproperties, hkeys, _⟩ :=
    rendering_is_normal_form (PrefixMap.empty.insert "p" "http://e/")
  constructor
  · have hblock := Property.Writable.nestedWildcard (List.cons_ne_nil _ _)
      (List.forall_mem_singleton.mpr (Property.Writable.named hinner))
    have hchildren := List.forall_mem_cons.mpr
      ⟨hblock, List.forall_mem_singleton.mpr Property.Writable.wildcard⟩
    have hproperty := Property.Writable.nested houter (List.cons_ne_nil _ _) hchildren
    have hlist := List.forall_mem_singleton.mpr hproperty
    exact hproperties.parse_render _ ⟨List.cons_ne_nil _ _, hlist⟩
  · have hkey := List.forall_mem_singleton.mpr (@SortKey.Writable.key _ .descending _ hinner)
    have hgroup := @SortKey.Writable.group _ .ascending _ _ houter (List.cons_ne_nil _ _) hkey
    exact hkeys.parse_render _ ⟨List.cons_ne_nil _ _, List.forall_mem_singleton.mpr hgroup⟩

end ResourceQuery.Clause
