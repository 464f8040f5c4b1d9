import ResourceQuery.Inspection
import ResourceQuery.Proofs.Decimal.Digits
import ResourceQuery.Proofs.Lexer.Spelling
import ResourceQuery.Proofs.Property.Writable
import ResourceQuery.Proofs.SortKey.Writable

/-!
# Clauses from their JSON

Clauses that can be written are told apart by the JSON values that show them. A name is shown as it
was written, and by that its token is known, and so is what its prefix is bound to. What shows a
tree holds what shows its parts, under the same keys wherever two trees are shown alike.
-/

namespace ResourceQuery

set_option autoImplicit false

variable {names : PrefixMap}

theorem Token.eq_of_text_eq {t u : Token} (ht : t.WellFormed) (hu : u.WellFormed)
    (h : t.text = u.text) : t = u := by
  have hread : tokenize (" ".intercalate ([t].map text)) = .ok [t] :=
    tokenize_eq_ok_iff.mpr (tokenizes_spaced (List.forall_mem_singleton.mpr ht))
  have hread' : tokenize (" ".intercalate ([u].map text)) = .ok [u] :=
    tokenize_eq_ok_iff.mpr (tokenizes_spaced (List.forall_mem_singleton.mpr hu))
  rw [List.map_singleton, h, ← List.map_singleton, hread'] at hread
  cases hread
  rfl

theorem QualifiedName.Writable.eq_of_toJson_eq {m n : QualifiedName} (hm : m.Writable names)
    (hn : n.Writable names) (h : m.toJson = n.toJson) : m = n := by
  obtain ⟨space, localName, _⟩ := m
  obtain ⟨space', localName', _⟩ := n
  obtain ⟨pfx, rfl, hspace, hwell⟩ := hm
  obtain ⟨pfx', rfl, hspace', hwell'⟩ := hn
  have htext : (Token.prefixed pfx localName).text = (Token.prefixed pfx' localName').text := by
    simp only [toJson, Json.object.injEq, List.cons.injEq, Prod.mk.injEq, Json.string.injEq] at h
    exact h.1.2
  cases Token.eq_of_text_eq hwell hwell' htext
  cases hspace.symm.trans hspace'
  rfl

/-- A decimal is negative if its text begins with the sign, since no digit is one. -/
theorem Decimal.negative_iff_head? (d : Decimal) :
    d.negative = true ↔ d.text.toList.head? = some '-' := by
  obtain ⟨c, cs, hdigits, hc⟩ := d.isNumeral_digits.exists_digit_cons
  rw [text_eq_digits, String.toList_append, hdigits]
  cases d.negative with
  | true => exact iff_of_true rfl rfl
  | false =>
    refine iff_of_false Bool.false_ne_true ?_
    intro h
    cases h
    exact absurd hc (by decide)

theorem Decimal.text_injective : Function.Injective Decimal.text := by
  intro d e h
  have hnegative : d.negative = e.negative := by
    rw [Bool.eq_iff_iff, negative_iff_head?, negative_iff_head?, h]
  have hdigits : d.digits = e.digits := by
    rw [text_eq_digits, text_eq_digits, hnegative] at h
    exact String.append_right_inj _ |>.mp h
  have hread := d.ofDigits_digits
  rw [hnegative, hdigits, ofDigits_digits] at hread
  exact (Except.ok.inj hread).symm

theorem Value.Writable.eq_of_toJson_eq {v w : Value} (hv : v.Writable names)
    (hw : w.Writable names) (h : v.toJson = w.toJson) : v = w := by
  simp only [Value.toJson, Json.object.injEq, List.cons.injEq, Prod.mk.injEq, Json.string.injEq,
    true_and] at h
  obtain ⟨htype, hcontent⟩ := h
  cases v with
  | uri reference =>
    cases w with
    | uri _ =>
      cases hcontent
      rfl
    | boolean _ | decimal _ | string _ | typed _ _ | tagged _ _ => simp [typeName] at htype
  | boolean b =>
    cases w with
    | boolean _ =>
      cases hcontent
      rfl
    | uri _ | decimal _ | string _ | typed _ _ | tagged _ _ => simp [typeName] at htype
  | decimal d =>
    cases w with
    | decimal e =>
      simp only [List.cons.injEq, Prod.mk.injEq, Json.string.injEq, true_and, and_true] at hcontent
      rw [Decimal.text_injective hcontent]
    | uri _ | boolean _ | string _ | typed _ _ | tagged _ _ => simp [typeName] at htype
  | string body =>
    cases w with
    | string _ =>
      cases hcontent
      rfl
    | uri _ | boolean _ | decimal _ | typed _ _ | tagged _ _ => simp [typeName] at htype
  | typed body datatype =>
    cases w with
    | typed body' datatype' =>
      simp only [List.cons.injEq, Prod.mk.injEq, Json.string.injEq, true_and, and_true] at hcontent
      obtain ⟨rfl, hdatatype⟩ := hcontent
      rw [hv.2.eq_of_toJson_eq hw.2 hdatatype]
    | uri _ | boolean _ | decimal _ | string _ | tagged _ _ => simp [typeName] at htype
  | tagged body language =>
    cases w with
    | tagged _ _ =>
      cases hcontent
      rfl
    | uri _ | boolean _ | decimal _ | string _ | typed _ _ => simp [typeName] at htype

theorem Comparison.text_injective : Function.Injective Comparison.text := by
  intro r s h
  cases r <;> cases s <;> first | rfl | simp [text] at h

namespace Term

theorem toJsons_eq_map (ts : List Term) : toJsons ts = ts.map toJson := by
  induction ts with
  | nil => rfl
  | cons t ts ih => rw [toJsons, ih, List.map_cons]

theorem Writable.eq_of_toJson_eq {t u : Term} (ht : t.Writable names) (hu : u.Writable names)
    (h : t.toJson = u.toJson) : t = u := by
  induction ht generalizing u with
  | comparison hproperty hoperand =>
    cases hu with
    | comparison hproperty' hoperand' =>
      simp only [Term.toJson, Json.object.injEq, List.cons.injEq, Prod.mk.injEq, Json.string.injEq,
        true_and, and_true] at h
      obtain ⟨hsame, hrelation, hsame'⟩ := h
      rw [hproperty.eq_of_toJson_eq hproperty' hsame, Comparison.text_injective hrelation,
        hoperand.eq_of_toJson_eq hoperand' hsame']
    | membership | nested => simp [Term.toJson] at h
  | membership hproperty _ hoperands =>
    cases hu with
    | membership hproperty' _ hoperands' =>
      simp only [Term.toJson, Json.object.injEq, List.cons.injEq, Prod.mk.injEq, Json.array.injEq,
        true_and, and_true] at h
      obtain ⟨hsame, hsame'⟩ := h
      have heq := eq_of_map_eq_map
        (fun v hv w hw => (hoperands v hv).eq_of_toJson_eq (hoperands' w hw)) hsame'
      rw [hproperty.eq_of_toJson_eq hproperty' hsame, heq]
    | comparison | nested => simp [Term.toJson] at h
  | nested hproperty _ _ ih =>
    cases hu with
    | nested hproperty' _ hterms' =>
      simp only [Term.toJson, Json.object.injEq, List.cons.injEq, Prod.mk.injEq, Json.array.injEq,
        toJsons_eq_map, true_and, and_true] at h
      obtain ⟨hsame, hsame'⟩ := h
      have heq := eq_of_map_eq_map (fun t ht u hu => ih t ht (hterms' u hu)) hsame'
      rw [hproperty.eq_of_toJson_eq hproperty' hsame, heq]
    | comparison | membership => simp [Term.toJson] at h

theorem WritableClause.eq_of_toJsons_eq {ts us : List Term} (hts : WritableClause names ts)
    (hus : WritableClause names us) (h : toJsons ts = toJsons us) : ts = us := by
  rw [toJsons_eq_map, toJsons_eq_map] at h
  exact eq_of_map_eq_map (fun t ht u hu => (hts.terms t ht).eq_of_toJson_eq (hus.terms u hu)) h

end Term

namespace Property

theorem toJsons_eq_map (ps : List Property) : toJsons ps = ps.map toJson := by
  induction ps with
  | nil => rfl
  | cons p ps ih => rw [toJsons, ih, List.map_cons]

theorem Writable.eq_of_toJson_eq {p q : Property} (hp : p.Writable names) (hq : q.Writable names)
    (h : p.toJson = q.toJson) : p = q := by
  induction hp generalizing q with
  | named hname =>
    cases hq with
    | named hname' =>
      simp only [Property.toJson, Json.object.injEq, List.cons.injEq, Prod.mk.injEq, true_and,
        and_true] at h
      rw [hname.eq_of_toJson_eq hname' h]
    | wildcard | nested | nestedWildcard => simp [Property.toJson] at h
  | wildcard =>
    cases hq with
    | wildcard => rfl
    | named | nested | nestedWildcard => simp [Property.toJson] at h
  | nested hname _ _ ih =>
    cases hq with
    | nested hname' _ hchildren' =>
      simp only [Property.toJson, Json.object.injEq, List.cons.injEq, Prod.mk.injEq,
        Json.array.injEq, toJsons_eq_map, true_and, and_true] at h
      obtain ⟨hsame, hsame'⟩ := h
      have heq := eq_of_map_eq_map (fun p hp q hq => ih p hp (hchildren' q hq)) hsame'
      rw [hname.eq_of_toJson_eq hname' hsame, heq]
    | named | wildcard | nestedWildcard => simp [Property.toJson] at h
  | nestedWildcard _ _ ih =>
    cases hq with
    | nestedWildcard _ hchildren' =>
      simp only [Property.toJson, Json.object.injEq, List.cons.injEq, Prod.mk.injEq,
        Json.array.injEq, toJsons_eq_map, true_and, and_true] at h
      rw [eq_of_map_eq_map (fun p hp q hq => ih p hp (hchildren' q hq)) h]
    | named | wildcard | nested => simp [Property.toJson] at h

theorem WritableClause.eq_of_toJsons_eq {ps qs : List Property} (hps : WritableClause names ps)
    (hqs : WritableClause names qs) (h : toJsons ps = toJsons qs) : ps = qs := by
  rw [toJsons_eq_map, toJsons_eq_map] at h
  exact eq_of_map_eq_map
    (fun p hp q hq => (hps.properties p hp).eq_of_toJson_eq (hqs.properties q hq)) h

end Property

theorem Direction.word_injective : Function.Injective Direction.word := by
  intro d e h
  cases d <;> cases e <;> first | rfl | simp [word] at h

namespace SortKey

theorem toJsons_eq_map (ks : List SortKey) : toJsons ks = ks.map toJson := by
  induction ks with
  | nil => rfl
  | cons k ks ih => rw [toJsons, ih, List.map_cons]

theorem Writable.eq_of_toJson_eq {k l : SortKey} (hk : k.Writable names) (hl : l.Writable names)
    (h : k.toJson = l.toJson) : k = l := by
  induction hk generalizing l with
  | key hproperty =>
    cases hl with
    | key hproperty' =>
      simp only [SortKey.toJson, Json.object.injEq, List.cons.injEq, Prod.mk.injEq,
        Json.string.injEq, true_and, and_true] at h
      obtain ⟨hdirection, hsame⟩ := h
      rw [Direction.word_injective hdirection, hproperty.eq_of_toJson_eq hproperty' hsame]
    | group => simp [SortKey.toJson] at h
  | group hproperty _ _ ih =>
    cases hl with
    | group hproperty' _ hkeys' =>
      simp only [SortKey.toJson, Json.object.injEq, List.cons.injEq, Prod.mk.injEq,
        Json.string.injEq, Json.array.injEq, toJsons_eq_map, true_and, and_true] at h
      obtain ⟨hdirection, hsame, hsame'⟩ := h
      have heq := eq_of_map_eq_map (fun k hk l hl => ih k hk (hkeys' l hl)) hsame'
      rw [Direction.word_injective hdirection, hproperty.eq_of_toJson_eq hproperty' hsame, heq]
    | key => simp [SortKey.toJson] at h

theorem WritableClause.eq_of_toJsons_eq {ks ls : List SortKey} (hks : WritableClause names ks)
    (hls : WritableClause names ls) (h : toJsons ks = toJsons ls) : ks = ls := by
  rw [toJsons_eq_map, toJsons_eq_map] at h
  exact eq_of_map_eq_map (fun k hk l hl => (hks.keys k hk).eq_of_toJson_eq (hls.keys l hl)) h

end SortKey

end ResourceQuery
