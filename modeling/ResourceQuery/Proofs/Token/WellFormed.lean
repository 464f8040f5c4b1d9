import ResourceQuery.Token

/-!
# The shapes of tokens

What the characters of a well-formed token are, said without the lexer. Reserved words are no
names, but may stand before the colon of a prefixed name. A string body is read in pairs where
a backslash stands, so a quote in it is always escaped.
-/

namespace ResourceQuery

set_option autoImplicit false

namespace Token

/-- A run of name characters, not empty, that no full stop ends. -/
structure IsLocalName (cs : List Char) : Prop where
  nonempty : cs ≠ []
  chars : ∀ c ∈ cs, isNameChar c = true
  last : cs.getLast? ≠ some '.'

/-- What can stand for itself as a bare word, or before a colon as a prefix. -/
structure IsWord (cs : List Char) : Prop extends IsLocalName cs where
  start : ∀ c ∈ cs.head?, isNameStart c = true

theorem isLocalName_iff {cs : List Char} :
    IsLocalName cs ↔ cs ≠ [] ∧ cs.all isNameChar = true ∧ cs.getLast? ≠ some '.' :=
  ⟨fun h => ⟨h.nonempty, List.all_eq_true.mpr h.chars, h.last⟩,
    fun h => ⟨h.1, List.all_eq_true.mp h.2.1, h.2.2⟩⟩

instance : DecidablePred IsLocalName := fun _ => decidable_of_iff _ isLocalName_iff.symm

theorem isWord_iff {cs : List Char} :
    IsWord cs ↔ IsLocalName cs ∧ cs.head?.all isNameStart = true := by
  rw [Option.all_eq_true]
  exact ⟨fun h => ⟨h.toIsLocalName, h.start⟩, fun h => ⟨h.1, h.2⟩⟩

instance : DecidablePred IsWord := fun _ => decidable_of_iff _ isWord_iff.symm

structure IsReference (cs : List Char) : Prop where
  nonempty : cs ≠ []
  chars : ∀ c ∈ cs, isUriChar c = true
  head : cs.head? ≠ some '='

theorem isReference_iff {cs : List Char} :
    IsReference cs ↔ cs ≠ [] ∧ cs.all isUriChar = true ∧ cs.head? ≠ some '=' :=
  ⟨fun h => ⟨h.nonempty, List.all_eq_true.mpr h.chars, h.head⟩,
    fun h => ⟨h.1, List.all_eq_true.mp h.2.1, h.2.2⟩⟩

instance : DecidablePred IsReference := fun _ => decidable_of_iff _ isReference_iff.symm

/-- Characters that neither quote nor escape, and pairs of a backslash and any character. -/
inductive IsBody : List Char → Prop where
  | nil : IsBody []
  | plain {c : Char} {cs : List Char} (hquote : c ≠ '"') (hescape : c ≠ '\\') (h : IsBody cs) :
    IsBody (c :: cs)
  | escaped {c : Char} {cs : List Char} (h : IsBody cs) : IsBody ('\\' :: c :: cs)

structure IsDigits (cs : List Char) : Prop where
  nonempty : cs ≠ []
  digits : ∀ c ∈ cs, c.isDigit = true

inductive IsNumeral : List Char → Prop where
  | whole {ds : List Char} (h : IsDigits ds) : IsNumeral ds
  | fraction {ds fs : List Char} (h : IsDigits ds) (k : IsDigits fs) : IsNumeral (ds ++ '.' :: fs)

theorem IsDigits.exists_cons {cs : List Char} (h : IsDigits cs) :
    ∃ d ds, cs = d :: ds ∧ d.isDigit = true := by
  obtain ⟨d, ds, rfl⟩ := List.exists_cons_of_ne_nil h.nonempty
  exact ⟨d, ds, rfl, h.digits d List.mem_cons_self⟩

theorem IsNumeral.exists_digit_cons {cs : List Char} (h : IsNumeral cs) :
    ∃ d ds, cs = d :: ds ∧ d.isDigit = true := by
  cases h with
  | whole h => exact h.exists_cons
  | @fraction _ fs h _ =>
    obtain ⟨d, ds, rfl, hd⟩ := h.exists_cons
    exact ⟨d, ds ++ '.' :: fs, rfl, hd⟩

/-- Parts that each follow a hyphen and hold letters and digits. -/
inductive IsSubtags : List Char → Prop where
  | nil : IsSubtags []
  | cons {part cs : List Char} (hne : part ≠ []) (hpart : ∀ c ∈ part, c.isAlphanum = true)
    (h : IsSubtags cs) : IsSubtags ('-' :: part ++ cs)

/-- Letters, and then subtags. -/
inductive IsTag : List Char → Prop where
  | mk {primary cs : List Char} (hne : primary ≠ []) (hprimary : ∀ c ∈ primary, c.isAlpha = true)
    (h : IsSubtags cs) : IsTag (primary ++ cs)

/-- The words that are no names by themselves. -/
def reserved : List String := ["and", "in", "true", "false"]

def WellFormed : Token → Prop
  | prefixed pfx localName => (pfx = "" ∨ IsWord pfx.toList) ∧ IsLocalName localName.toList
  | name word => IsWord word.toList ∧ word ∉ reserved
  | uri reference => IsReference reference.toList
  | quoted body => IsBody body.toList
  | number digits => IsNumeral digits.toList
  | language tag => IsTag tag.toList
  | boolean _ | comparison _ | mark _ => True

theorem isWord_of_mem_reserved {word : String} (h : word ∈ reserved) : IsWord word.toList := by
  have hall : ∀ w ∈ reserved, IsWord w.toList := by decide +kernel
  exact hall word h

theorem ofWord_of_notMem_reserved {word : String} (h : word ∉ reserved) :
    ofWord word = name word := by
  simp only [reserved, List.mem_cons, List.not_mem_nil, or_false, not_or] at h
  obtain ⟨hand, hin, htrue, hfalse⟩ := h
  rw [ofWord, if_neg hand, if_neg hin, if_neg htrue, if_neg hfalse]

theorem wellFormed_ofWord {word : String} (h : IsWord word.toList) :
    (ofWord word).WellFormed := by
  by_cases hreserved : word ∈ reserved
  · simp only [reserved, List.mem_cons, List.not_mem_nil, or_false] at hreserved
    rcases hreserved with rfl | rfl | rfl | rfl <;> trivial
  · rw [ofWord_of_notMem_reserved hreserved]
    exact ⟨h, hreserved⟩

end Token

end ResourceQuery
