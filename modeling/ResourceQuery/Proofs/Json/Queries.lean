import ResourceQuery.Proofs.Json.Clauses
import ResourceQuery.Proofs.Json.Texts
import ResourceQuery.Proofs.Request.Reading

/-!
# Queries and selections from their JSON texts

No two queries that are read from requests have one text, and no two selections have. The members
of a query have different keys, so from its JSON it is known which clauses it has and what shows
them. A choice is shown by `true` or an object, and no choice by `null`.
-/

namespace ResourceQuery

set_option autoImplicit false

variable {α : Type}

theorem PrefixMap.toJson_injective : Function.Injective PrefixMap.toJson := by
  rintro ⟨pairs, _⟩ ⟨pairs', _⟩ h
  have hpairs : ∀ a ∈ pairs, ∀ b ∈ pairs', (a.1, Json.string a.2) = (b.1, Json.string b.2) →
      a = b := by
    rintro ⟨k, v⟩ _ ⟨k', v'⟩ _ heq
    cases heq
    rfl
  obtain rfl := eq_of_map_eq_map hpairs (Json.object.inj h)
  rfl

theorem SearchTerms.toJson_injective : Function.Injective SearchTerms.toJson := by
  intro phrases phrases' h
  exact eq_of_map_eq_map (fun _ _ _ _ => Json.string.inj) (Json.array.inj h)

/-- What an object holds under the key. -/
def Json.member? (key : String) : Json → Option Json
  | object members => members.lookup key
  | _ => none

namespace Query

open Json (member?)

/-- What an optional member adds to an object is found under its own key only. -/
theorem lookup_toList_map (key key' : String) (o : Option α) (f : α → Json) :
    (o.map fun a => (key', f a)).toList.lookup key = if key == key' then o.map f else none := by
  cases o with
  | none => simp
  | some a => cases h : key == key' <;> simp [List.lookup_cons, h]

variable (q : Query)

theorem member?_prefixes : member? "prefixes" q.toJson = some q.prefixes.toJson := rfl

theorem member?_where : member? "where" q.toJson =
    q.condition.map fun terms => .array (Term.toJsons terms) := by
  simp [member?, toJson, List.lookup_cons, List.lookup_append, lookup_toList_map]

theorem member?_select : member? "select" q.toJson =
    q.select.map fun list => .array (Property.toJsons list) := by
  simp [member?, toJson, List.lookup_cons, List.lookup_append, lookup_toList_map]

theorem member?_properties : member? "properties" q.toJson =
    q.properties.map fun list => .array (Property.toJsons list) := by
  simp [member?, toJson, List.lookup_cons, List.lookup_append, lookup_toList_map]

theorem member?_orderBy : member? "orderBy" q.toJson =
    q.orderBy.map fun keys => .array (SortKey.toJsons keys) := by
  simp [member?, toJson, List.lookup_cons, List.lookup_append, lookup_toList_map]

theorem member?_searchTerms : member? "searchTerms" q.toJson =
    q.searchTerms.map SearchTerms.toJson := by
  simp [member?, toJson, List.lookup_cons, List.lookup_append, lookup_toList_map]

variable {q}

theorem Writable.eq_of_toJson_eq {q' : Query} (hq : q.Writable) (hq' : q'.Writable)
    (h : q.toJson = q'.toJson) : q = q' := by
  have hprefixes := congrArg (member? "prefixes") h
  have hcondition := congrArg (member? "where") h
  have hselect := congrArg (member? "select") h
  have hproperties := congrArg (member? "properties") h
  have horderBy := congrArg (member? "orderBy") h
  have hsearchTerms := congrArg (member? "searchTerms") h
  simp only [member?_prefixes, member?_where, member?_select, member?_properties, member?_orderBy,
    member?_searchTerms] at hprefixes hcondition hselect hproperties horderBy hsearchTerms
  obtain ⟨prefixes, condition, select, properties, orderBy, searchTerms⟩ := q
  obtain ⟨prefixes', condition', select', properties', orderBy', searchTerms'⟩ := q'
  obtain rfl := PrefixMap.toJson_injective (Option.some.inj hprefixes)
  obtain rfl := eq_of_option_map_eq hcondition fun ts hts us hus heq =>
    (hq.condition ts hts).eq_of_toJsons_eq (hq'.condition us hus) (Json.array.inj heq)
  obtain rfl := eq_of_option_map_eq hselect fun ps hps qs hqs heq =>
    (hq.select ps hps).eq_of_toJsons_eq (hq'.select qs hqs) (Json.array.inj heq)
  obtain rfl := eq_of_option_map_eq hproperties fun ps hps qs hqs heq =>
    (hq.properties ps hps).eq_of_toJsons_eq (hq'.properties qs hqs) (Json.array.inj heq)
  obtain rfl := eq_of_option_map_eq horderBy fun ks hks ls hls heq =>
    (hq.orderBy ks hks).eq_of_toJsons_eq (hq'.orderBy ls hls) (Json.array.inj heq)
  obtain rfl := eq_of_option_map_eq hsearchTerms fun _ _ _ _ heq => SearchTerms.toJson_injective heq
  rfl

end Query

theorem Choice.toJson_ne_null (c : Choice) : c.toJson ≠ .null := by
  rcases c with _ | ⟨⟨entries, wildcard⟩⟩ <;> simp [Choice.toJson, Selection.toJson]

theorem Selection.toJson_ne_bool (s : Selection) (b : Bool) : s.toJson ≠ .bool b := by
  cases s
  simp [Selection.toJson]

mutual

theorem Selection.eq_of_toJson_eq : (s : Selection) → ∀ {t}, s.toJson = t.toJson → s = t
  | .mk es w, .mk fs v, h => by
    simp only [Selection.toJson, Json.object.injEq, List.cons.injEq, Prod.mk.injEq, true_and,
      and_true] at h
    rw [Choice.eq_of_toMembers_eq es h.1, Choice.eq_of_wildcardToJson_eq w h.2]

theorem Choice.eq_of_toJson_eq : (c : Choice) → ∀ {d}, c.toJson = d.toJson → c = d
  | .plain, .plain, _ => rfl
  | .plain, .nested t, h => absurd h.symm (t.toJson_ne_bool true)
  | .nested s, .plain, h => absurd h (s.toJson_ne_bool true)
  | .nested s, .nested t, h => by
    rw [Choice.toJson, Choice.toJson] at h
    rw [Selection.eq_of_toJson_eq s h]

theorem Choice.eq_of_toMembers_eq : (es : List (String × Choice)) → ∀ {fs},
    Choice.toMembers es = Choice.toMembers fs → es = fs
  | [], [], _ => rfl
  | e :: es, f :: fs, h => by
    obtain ⟨hmember, hrest⟩ := List.cons.inj h
    rw [Choice.eq_of_toMember_eq e hmember, Choice.eq_of_toMembers_eq es hrest]

theorem Choice.eq_of_toMember_eq : (e : String × Choice) → ∀ {f},
    Choice.toMember e = Choice.toMember f → e = f
  | (uri, c), (uri', d), h => by
    obtain ⟨rfl, hchoice⟩ := Prod.mk.inj h
    rw [Choice.eq_of_toJson_eq c hchoice]

theorem Choice.eq_of_wildcardToJson_eq : (w : Option Choice) → ∀ {v},
    Choice.wildcardToJson w = Choice.wildcardToJson v → w = v
  | none, none, _ => rfl
  | none, some c, h => absurd h.symm c.toJson_ne_null
  | some c, none, h => absurd h c.toJson_ne_null
  | some c, some d, h => by
    rw [Choice.eq_of_toJson_eq c h]

end

/-- Queries that are read from requests are the same if their compact JSON texts are, or their
indented ones, and so are all selections. -/
theorem Query.eq_iff_jsonTexts_eq :
    (∀ (r r' : Request) (q q' : Query), r.parse = .ok q → r'.parse = .ok q' →
      (q.toJson.compact = q'.toJson.compact ↔ q = q') ∧
      (q.toJson.pretty = q'.toJson.pretty ↔ q = q')) ∧
    ∀ s t : Selection, (s.toJson.compact = t.toJson.compact ↔ s = t) ∧
      (s.toJson.pretty = t.toJson.pretty ↔ s = t) := by
  constructor
  · intro r r' q q' hq hq'
    have heq : q.toJson = q'.toJson ↔ q = q' := by
      constructor
      · exact (writable_of_parse hq).eq_of_toJson_eq (writable_of_parse hq')
      · exact congrArg toJson
    exact ⟨Json.compact_injective.eq_iff.trans heq, Json.pretty_injective.eq_iff.trans heq⟩
  · intro s t
    have heq : s.toJson = t.toJson ↔ s = t := by
      constructor
      · exact s.eq_of_toJson_eq
      · exact congrArg Selection.toJson
    exact ⟨Json.compact_injective.eq_iff.trans heq, Json.pretty_injective.eq_iff.trans heq⟩

theorem Query.eq_iff_jsonTexts_eq_wildcard :
    Request.parse ⟨none, none, some "*", none, none, none⟩ =
      .ok ⟨.empty, none, some [.wildcard], none, none, none⟩ ∧
    (Query.mk .empty none (some [.wildcard]) none none none).toJson.compact ≠
      (Query.mk .empty none none none none none).toJson.compact := by
  have hselect : Property.parse .empty "*" = .ok [.wildcard] := by
    have htokens : tokenize "*" = .ok [.mark .star] := by decide +kernel
    exact Property.parse_eq_ok_iff.mpr ⟨_, htokens, .one (.leaf .wildcard), rfl, rfl⟩
  have hparse : Request.parse ⟨none, none, some "*", none, none, none⟩ =
      .ok ⟨.empty, none, some [.wildcard], none, none, none⟩ := by
    refine Request.parse_eq_ok_iff.mpr ⟨⟨none, rfl, rfl⟩, rfl, ?_, rfl, rfl, rfl⟩
    exact map_eq_ok_iff.mpr ⟨[.wildcard], hselect, rfl⟩
  have hempty : Request.parse ⟨none, none, none, none, none, none⟩ =
      .ok ⟨.empty, none, none, none, none, none⟩ := rfl
  refine ⟨hparse, ?_⟩
  intro h
  cases (eq_iff_jsonTexts_eq.1 _ _ _ _ hparse hempty).1.mp h

end ResourceQuery
