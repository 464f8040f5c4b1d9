import ResourceQuery.Check
import ResourceQuery.Proofs.Json.Queries
import ResourceQuery.Proofs.Request.Clauses

/-!
# Checks and requests

A check of one clause does what a request of that clause does, with the same prefixes beside it. It
fails as the request fails, and it shows what the query holds of the clause, or the selection that
the query asks for. That only the syntax is of interest changes what is shown and nothing else.
-/

namespace ResourceQuery

set_option autoImplicit false

open Request (readIfGiven)
open Json (member?)

variable {c : Check} {q : Query} {x : ParseError} {clause : Clause}

def Tree.toJson : Tree → Json
  | prefixes bound => bound.toJson
  | condition terms => .array (Term.toJsons terms)
  | properties list => .array (Property.toJsons list)
  | orderBy keys => .array (SortKey.toJsons keys)
  | searchTerms phrases => SearchTerms.toJson phrases

/-- What a check shows of a tree: the tree, or what a list of properties asks for. -/
def Tree.shown (invert : Bool) : Tree → Json
  | properties list =>
    if invert then (Selection.ofProperties list).toJson else (properties list).toJson
  | tree => tree.toJson

theorem Tree.shown_false (tree : Tree) : tree.shown false = tree.toJson := by
  cases tree <;> rfl

/-- The key under which the JSON of a query has a clause. -/
def Clause.key : Clause → String
  | prefixes => "prefixes"
  | condition => "where"
  | select => "select"
  | properties => "properties"
  | orderBy => "orderBy"
  | searchTerms => "searchTerms"

theorem Query.member?_key (q : Query) (clause : Clause) :
    member? clause.key q.toJson = (q.tree? clause).map Tree.toJson := by
  cases clause with
  | prefixes => exact q.member?_prefixes
  | condition => rw [Clause.key, member?_where, tree?, Option.map_map]; rfl
  | select => rw [Clause.key, member?_select, tree?, Option.map_map]; rfl
  | properties => rw [Clause.key, member?_properties, tree?, Option.map_map]; rfl
  | orderBy => rw [Clause.key, member?_orderBy, tree?, Option.map_map]; rfl
  | searchTerms => rw [Clause.key, member?_searchTerms, tree?, Option.map_map]; rfl

namespace Check

/-- A check reads its prefixes, and then its clause as it is read by itself. -/
theorem tree_eq (c : Check) : c.tree = readIfGiven PrefixMap.parse c.prefixes >>= fun declared =>
    (c.clause.parse (declared.getD .empty) c.expression).map (Tree.shown c.invert) := by
  obtain ⟨clause, expression, prefixes, pretty, invert, syntaxOnly⟩ := c
  cases hdeclared : readIfGiven PrefixMap.parse prefixes with
  | error e =>
    simp only [tree, hdeclared]
    rfl
  | ok declared =>
    simp only [tree, hdeclared]
    cases clause <;> exact bind_pure_eq_map_map fun _ => rfl

theorem tree_eq_error_iff : c.tree = .error x ↔
    readIfGiven PrefixMap.parse c.prefixes = .error x ∨
    ∃ declared, readIfGiven PrefixMap.parse c.prefixes = .ok declared ∧
      c.clause.parse (declared.getD .empty) c.expression = .error x := by
  simp only [tree_eq, bind_eq_error_iff, map_eq_error_iff]

theorem tree_eq_ok_iff {json : Json} : c.tree = .ok json ↔
    ∃ declared tree, readIfGiven PrefixMap.parse c.prefixes = .ok declared ∧
      c.clause.parse (declared.getD .empty) c.expression = .ok tree ∧
      tree.shown c.invert = json := by
  simp only [tree_eq, bind_eq_ok_iff, map_eq_ok_iff, exists_and_left]

/-- The pairs of the request that a check stands for: its prefixes, if it has some, and its
clause. -/
def pairs (c : Check) : List (String × String) :=
  (c.prefixes.map (Clause.prefixes.parameter, ·)).toList ++ [(c.clause.parameter, c.expression)]

def request (c : Check) : Request := .ofPairs c.pairs

theorem given_request (c : Check) (clause : Clause) : c.request.given clause =
    if clause = c.clause then some c.expression
    else if clause = .prefixes then c.prefixes else none := by
  rw [request, pairs, Request.ofPairs_concat, Request.given_addPair]
  cases c.prefixes with
  | none => simp [Clause.parameter_injective.eq_iff, Request.ofPairs]
  | some text => simp [Clause.parameter_injective.eq_iff, Request.ofPairs, Request.given_addPair]

theorem alone_request_self (c : Check) : c.request.alone c.clause =
    (c.clause.parse c.request.names c.expression).map some := by
  rw [Request.alone, given_request, if_pos rfl]
  rfl

theorem alone_request_of_ne (hprefixes : clause ≠ .prefixes) (hne : clause ≠ c.clause) :
    c.request.alone clause = .ok none := by
  rw [Request.alone, given_request, if_neg hne, if_neg hprefixes]
  rfl

section

variable (hclause : c.clause ≠ .prefixes)
include hclause

theorem request_prefixes : c.request.prefixes = c.prefixes := by
  have hgiven := c.given_request .prefixes
  rwa [if_neg (Ne.symm hclause), if_pos rfl] at hgiven

theorem alone_request_prefixes : c.request.alone .prefixes =
    (readIfGiven PrefixMap.parse c.prefixes).map (Option.map .prefixes) := by
  rw [Request.alone_eq_part, Request.part, request_prefixes hclause]

theorem parse_request_eq_error_iff : c.request.parse = .error x ↔ c.tree = .error x := by
  -- behind the prefixes there is one clause that can fail
  have hmem : c.clause ∈ Clause.order.tail := by
    cases h : c.clause <;> simp_all [Clause.order]
  have hothers : ∀ other ∈ Clause.order.tail, other ≠ c.clause →
      ∃ tree, c.request.alone other = .ok tree := by
    intro other hother hne
    refine ⟨none, alone_request_of_ne ?_ hne⟩
    rintro rfl
    simp [Clause.order] at hother
  have hcons : Clause.order = .prefixes :: Clause.order.tail := rfl
  rw [Request.parse_eq_error_iff, tree_eq_error_iff, hcons, failsFirst_cons,
    alone_request_prefixes hclause, map_eq_error_iff, exists_map_eq_ok_iff,
    failsFirst_iff_of_others_ok hmem hothers, alone_request_self, map_eq_error_iff]
  cases hdeclared : readIfGiven PrefixMap.parse c.prefixes with
  | error e => simp
  | ok declared =>
    rw [← request_prefixes hclause] at hdeclared
    simp [Request.names_eq hdeclared]

theorem tree_of_parse_request (h : c.request.parse = .ok q) :
    ∃ tree, q.tree? c.clause = some tree ∧ c.tree = .ok (tree.shown c.invert) := by
  obtain ⟨hprefixes, halone⟩ := Request.alone_of_parse h
  rw [alone_request_prefixes hclause, exists_map_eq_ok_iff] at hprefixes
  obtain ⟨declared, hdeclared⟩ := hprefixes
  have hnames : c.request.names = declared.getD .empty :=
    Request.names_eq (by rwa [request_prefixes hclause])
  have hself := halone c.clause hclause
  rw [alone_request_self, map_eq_ok_iff] at hself
  obtain ⟨tree, hparse, htree⟩ := hself
  exact ⟨tree, htree.symm, tree_eq_ok_iff.mpr ⟨declared, tree, hdeclared, hnames ▸ hparse, rfl⟩⟩

/-- Where the one clause of a request is a list of properties, it says what is shown. -/
theorem tree?_of_isPropertyList (hlist : c.clause.isPropertyList = true)
    (h : c.request.parse = .ok q) : q.tree? c.clause = some (.properties q.shown) := by
  obtain ⟨_, halone⟩ := Request.alone_of_parse h
  obtain ⟨tree, htree, _⟩ := tree_of_parse_request hclause h
  rw [htree]
  cases hc : c.clause with
  | properties =>
    rw [hc] at htree
    obtain ⟨list, hlist, rfl⟩ := Option.map_eq_some_iff.mp htree
    simp [Query.shown, hlist]
  | select =>
    rw [hc] at htree
    obtain ⟨list, hlist, rfl⟩ := Option.map_eq_some_iff.mp htree
    have hother : c.request.alone .properties = .ok none :=
      alone_request_of_ne nofun (by rw [hc]; nofun)
    rw [halone .properties nofun] at hother
    have hnone : q.properties = none := Option.map_eq_none_iff.mp (Except.ok.inj hother)
    simp [Query.shown, hlist, hnone]
  | _ =>
    rw [hc] at hlist
    cases hlist

end

theorem run_eq (hinvert : c.invert = true → c.clause.isPropertyList = true) :
    c.run = (c.tree.map fun json => if c.syntaxOnly then none else some json).mapError .parse := by
  have hallowed : (c.invert && !c.clause.isPropertyList) = false := by
    cases hflag : c.invert with
    | false => rfl
    | true => rw [hinvert hflag]; rfl
  simp only [run, hallowed]
  cases c.tree <;> rfl

/-- The check fails as its request does, and else it shows what `shown` takes from the query. -/
structure Agrees (c : Check) (shown : Query → Option Json) : Prop where
  error : ∀ x, c.request.parse = .error x → c.run = .error (.parse x)
  ok : ∀ q, c.request.parse = .ok q → ∃ json, shown q = some json ∧ c.run = .ok (some json)

theorem agrees_of_shown {shown : Query → Option Json} (hclause : c.clause ≠ .prefixes)
    (hinvert : c.invert = true → c.clause.isPropertyList = true) (hfull : c.syntaxOnly = false)
    (hshown : ∀ q, c.request.parse = .ok q →
      shown q = (q.tree? c.clause).map (Tree.shown c.invert)) : c.Agrees shown := by
  constructor
  · intro x hx
    rw [parse_request_eq_error_iff hclause] at hx
    rw [run_eq hinvert, hx]
    rfl
  · intro q hq
    obtain ⟨tree, htree, hjson⟩ := tree_of_parse_request hclause hq
    refine ⟨tree.shown c.invert, ?_, ?_⟩
    · rw [hshown q hq, htree, Option.map_some]
    · rw [run_eq hinvert, hjson, hfull]
      rfl

/-- Whether only the syntax is of interest changes what is shown and nothing else. -/
theorem run_syntaxOnly (clause : Clause) (expression : String) (prefixes : Option String)
    (pretty invert : Bool) :
    (Check.mk clause expression prefixes pretty invert true).run =
      (Check.mk clause expression prefixes pretty invert false).run.map fun _ => none := by
  by_cases hinvert : invert = true → clause.isPropertyList = true
  · rw [run_eq hinvert, run_eq hinvert]
    have htree : (Check.mk clause expression prefixes pretty invert true).tree =
        (Check.mk clause expression prefixes pretty invert false).tree := rfl
    rw [htree]
    cases (Check.mk clause expression prefixes pretty invert false).tree <;> rfl
  · obtain ⟨rfl, hlist⟩ := Classical.not_imp.mp hinvert
    rw [Bool.not_eq_true] at hlist
    simp only [run, hlist]
    rfl

end Check

/-- What a request comes to depends on the last values of its clauses. It fails as the first of its
clauses that fails under its prefixes, and else it holds what each of them is by itself. A check
comes to the same as a request of its clause: it shows the member of the query under the key of the
clause, or the selection of the query, and its errors do not depend on whether anything is shown. -/
theorem Check.run_agrees_with_request :
    (∀ pairs pairs' : List (String × String),
      (∀ (clause : Clause) v,
        IsLast pairs clause.parameter v ↔ IsLast pairs' clause.parameter v) →
          (Request.ofPairs pairs).parse = (Request.ofPairs pairs').parse) ∧
    (∀ pairs, let r := Request.ofPairs pairs
      (∀ clause v, r.given clause = some v ↔ IsLast pairs clause.parameter v) ∧
      (∀ x, r.parse = .error x ↔ FailsFirst r.alone Clause.order x) ∧
      ∀ q, r.parse = .ok q → q.prefixes = r.names ∧
        ∀ clause, clause ≠ .prefixes → r.alone clause = .ok (q.tree? clause)) ∧
    ∀ clause expression prefixes pretty, clause ≠ .prefixes →
      (Check.mk clause expression prefixes pretty false false).Agrees
        (fun q => member? clause.key q.toJson) ∧
      (clause.isPropertyList = true →
        (Check.mk clause expression prefixes pretty true false).Agrees
          fun q => some q.selection.toJson) ∧
      ∀ invert, (Check.mk clause expression prefixes pretty invert true).run =
        (Check.mk clause expression prefixes pretty invert false).run.map fun _ => none := by
  refine ⟨?_, ?_, ?_⟩
  · intro pairs pairs' h
    rw [Request.ofPairs_congr h]
  · intro pairs r
    refine ⟨fun _ _ => Request.given_ofPairs_eq_some_iff, fun _ => Request.parse_eq_error_iff, ?_⟩
    intro q hq
    exact ⟨Request.names_of_parse hq, (Request.alone_of_parse hq).2⟩
  · intro clause expression prefixes pretty hclause
    refine ⟨?_, ?_, run_syntaxOnly clause expression prefixes pretty⟩
    · apply agrees_of_shown hclause (fun hinvert => absurd hinvert Bool.false_ne_true) rfl
      intro q _
      rw [q.member?_key]
      exact congrArg (Option.map · _) (funext fun tree => tree.shown_false.symm)
    · intro hlist
      apply agrees_of_shown hclause (fun _ => hlist) rfl
      intro q hq
      rw [tree?_of_isPropertyList hclause hlist hq]
      rfl

/-- Of two clauses that fail the earlier one is reported, wherever it stands, and a list of
properties is shown as the selection that it asks for. -/
theorem Check.run_agrees_with_request_first :
    (Request.ofPairs [("oslc.orderBy", "a:b"), ("page", "2"), ("oslc.where", "*"),
      ("oslc.where", "(")]).parse = .error ⟨.lexical (.unexpected '('), "(", 0⟩ ∧
    (Request.ofPairs [("oslc.orderBy", "a:b"), ("page", "2"), ("oslc.where", "*"),
      ("oslc.where", "(")]).parse =
        (Request.ofPairs [("oslc.where", "("), ("oslc.orderBy", "a:b")]).parse ∧
    (Check.mk .condition "(" none true false false).run =
      .error (.parse ⟨.lexical (.unexpected '('), "(", 0⟩) ∧
    ∃ q, (Check.mk .select "*" none true true false).request.parse = .ok q ∧
      (Check.mk .select "*" none true true false).run = .ok (some q.selection.toJson) := by
  obtain ⟨hcongr, hrequests, hchecks⟩ := Check.run_agrees_with_request
  have hcondition : (Request.ofPairs [("oslc.orderBy", "a:b"), ("page", "2"), ("oslc.where", "*"),
      ("oslc.where", "(")]).alone .condition = .error ⟨.lexical (.unexpected '('), "(", 0⟩ := by
    apply (map_eq_error_iff (f := fun _ => ())).mp
    decide +kernel
  have hcheck : (Check.mk .condition "(" none true false false).request.parse =
      .error ⟨.lexical (.unexpected '('), "(", 0⟩ := by
    apply (map_eq_error_iff (f := fun _ => ())).mp
    decide +kernel
  have hselect : (Check.mk .select "*" none true true false).request.parse.map (fun _ => ()) =
      .ok () := by
    decide +kernel
  refine ⟨?_, ?_, ?_, ?_⟩
  · apply ((hrequests _).2.1 _).mpr
    refine ⟨[.prefixes], .condition, Clause.order.drop 2, rfl, hcondition, ?_⟩
    intro earlier hearlier
    cases List.mem_singleton.mp hearlier
    exact ⟨none, rfl⟩
  · apply hcongr
    intro clause v
    rw [← Request.given_ofPairs_eq_some_iff, ← Request.given_ofPairs_eq_some_iff]
    cases clause <;> rfl
  · have hagrees := (hchecks .condition "(" none true nofun).1
    exact hagrees.error _ hcheck
  · obtain ⟨q, hq, _⟩ := map_eq_ok_iff.mp hselect
    have hagrees := (hchecks .select "*" none true nofun).2.1 rfl
    obtain ⟨json, hjson, hrun⟩ := hagrees.ok q hq
    rw [← hjson] at hrun
    exact ⟨q, hq, hrun⟩

end ResourceQuery
