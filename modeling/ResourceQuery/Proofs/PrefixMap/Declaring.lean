import ResourceQuery.PrefixMap.Grammar
import ResourceQuery.Proofs.Lexer.Runs
import ResourceQuery.Proofs.PrefixMap.Rendering

/-!
# Declaring the prefixes that are used

The lexer reads a name before a colon as it reads one before an equals sign, and a reserved word is
a prefix in both places. So a name that is used with some prefix has a definition of this prefix,
with any namespace that can be written. The one prefix without a definition is the empty one: a name
may begin with a colon, but a definition begins with a word.
-/

namespace ResourceQuery

set_option autoImplicit false

open Lexer

variable {text pfx localName space : String} {t : Token}

/-- Some reading of a run over the text gives the token. -/
def Occurs (text : String) (t : Token) : Prop :=
  ∃ count, ((ofString text).skip count).next.1 = .ok (some t)

theorem Occurs.wellFormed (h : Occurs text t) : t.WellFormed := by
  obtain ⟨count, hnext⟩ := h
  obtain ⟨_, _, hstands⟩ := place_of_next_some (Prod.ext hnext rfl)
  exact hstands.wellFormed

theorem Occurs.definable (h : Occurs text (.prefixed pfx localName)) (hne : pfx ≠ "")
    (hspace : tokenize ("<" ++ space ++ ">") = .ok [.uri space]) :
    PrefixMap.Definable (pfx, space) := by
  have href := (tokenize_eq_ok_iff.mp hspace).wellFormed (.uri space) List.mem_cons_self
  exact ⟨h.wellFormed.1.resolve_left hne, href⟩

namespace PrefixMap

theorem parse_pairText (h : Definable (pfx, space)) :
    parse (pfx ++ "=<" ++ space ++ ">") = .ok (ofList [(pfx, space)]) := by
  have hpairs : (ofList [(pfx, space)]).pairs = [(pfx, space)] := rfl
  have htext : (ofList [(pfx, space)]).text = pfx ++ "=<" ++ space ++ ">" := by
    rw [text, hpairs, List.map_singleton, String.intercalate_singleton]
  have hwritable : (ofList [(pfx, space)]).Writable :=
    writable_ofList (List.forall_mem_singleton.mpr h)
  rw [← htext]
  exact parse_text_of_writable hwritable

theorem qualify_of_resolve {m : PrefixMap} (h : m.resolve pfx = some space)
    (wanted : Expectation) (localName : String) :
    m.qualify wanted (.prefixed pfx localName) = .ok ⟨space, localName, some pfx⟩ := by
  simp only [qualify, h]

/-- A text that begins with an equals sign is refused there. -/
theorem parse_of_equals_first {rest : List Char} (h : text.toList = '=' :: rest) :
    parse text = .error ⟨.expected .prefixName (some (.comparison .eq)), "=", 0⟩ := by
  have hnext : (Lexer.ofString text).next = (.ok (some (.comparison .eq)), ⟨text.toList, 0, 1⟩) := by
    rw [ofString, h]
    rfl
  have hstep : grammar.step grammar.start
      (Parser.lexeme ⟨⟨text.toList, 0, 1⟩, some (.comparison .eq)⟩ (.comparison .eq)) =
        .error (.expected .prefixName (some (.comparison .eq))) := rfl
  have hfragment : (Lexer.mk text.toList 0 1).slice 0 1 = "=" := by
    rw [slice, h]
    rfl
  rw [parse, Grammar.parse, Parser.ofLexer_of_next_ok hnext]
  simp only [Parser.read, Parser.readFrom_of_step_error hstep, Parser.locate, Parser.fragment,
    Parser.offset, hfragment]

end PrefixMap

/-- A prefix that some name in a text is written with can be declared, with every namespace that is
read as one reference, and the declaration makes the name mean the namespace with the local name
behind it. Only a name without a prefix cannot be given a meaning in this way: what would declare it
begins with an equals sign, and is refused there. -/
theorem PrefixMap.used_prefix_declarable (hused : Occurs text (.prefixed pfx localName))
    (hspace : tokenize ("<" ++ space ++ ">") = .ok [.uri space]) :
    (pfx ≠ "" → ∃ m, parse (pfx ++ "=<" ++ space ++ ">") = .ok m ∧ m.pairs = [(pfx, space)] ∧
      ∃ name : QualifiedName, (∀ wanted, m.qualify wanted (.prefixed pfx localName) = .ok name) ∧
        name.uri = space ++ localName) ∧
    (pfx = "" → parse (pfx ++ "=<" ++ space ++ ">") =
      .error ⟨.expected .prefixName (some (.comparison .eq)), "=", 0⟩) := by
  constructor
  · intro hne
    have hparse := parse_pairText (hused.definable hne hspace)
    have hresolve : (ofList [(pfx, space)]).resolve pfx = some space := List.lookup_cons_self
    exact ⟨_, hparse, rfl, _, fun wanted => qualify_of_resolve hresolve wanted localName, rfl⟩
  · rintro rfl
    have hlist : ("" ++ "=<" ++ space ++ ">").toList = '=' :: ("<" ++ space ++ ">").toList := by
      simp
    exact parse_of_equals_first hlist

/-- A reserved word as a prefix, behind a fault that is passed over. -/
theorem PrefixMap.used_prefix_declarable_reserved :
    Occurs "@- in:a.b." (.prefixed "in" "a.b") ∧
    ∃ m, parse "in=<a=#>" = .ok m ∧ m.pairs = [("in", "a=#")] ∧
      ∃ name : QualifiedName, (∀ wanted, m.qualify wanted (.prefixed "in" "a.b") = .ok name) ∧
        name.uri = "a=#a.b" := by
  have hused : Occurs "@- in:a.b." (.prefixed "in" "a.b") := ⟨1, by decide +kernel⟩
  have hspace : tokenize ("<" ++ "a=#" ++ ">") = .ok [.uri "a=#"] := by decide +kernel
  exact ⟨hused, (used_prefix_declarable hused hspace).1 (by decide)⟩

/-- A name may have an empty prefix, and no clause of prefixes declares this. -/
theorem PrefixMap.not_forall_used_prefix_declarable :
    ¬ ∀ text pfx localName space, Occurs text (.prefixed pfx localName) →
      tokenize ("<" ++ space ++ ">") = .ok [.uri space] →
        ∃ m, parse (pfx ++ "=<" ++ space ++ ">") = .ok m ∧ m.pairs = [(pfx, space)] := by
  intro hall
  have hused : Occurs ":x" (.prefixed "" "x") := ⟨0, by decide +kernel⟩
  have hspace : tokenize ("<" ++ "u" ++ ">") = .ok [.uri "u"] := by decide +kernel
  have hlist : ("" ++ "=<" ++ "u" ++ ">").toList = '=' :: ['<', 'u', '>'] := by decide +kernel
  obtain ⟨m, hparse, _⟩ := hall _ _ _ _ hused hspace
  rw [parse_of_equals_first hlist] at hparse
  cases hparse

end ResourceQuery
