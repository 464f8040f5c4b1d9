import ResourceQuery.Json

/-!
# Self-delimiting texts

A text is self-delimiting if it is told apart from the texts of all other values whatever comes
behind it. A quoted string is: an escape is told apart by its second character and ends before
what comes next, and no escape begins with a quote. So is a list of parts that are, if what stands
between two parts and what ends the list begin in different ways.
-/

namespace ResourceQuery.Json

set_option autoImplicit false

variable {α : Type} {f : α → String} {as bs : List α} {xs ys : List Char} {c d : Char}

/-- The text ends where it does whatever comes behind it, and is that of `a` only. -/
def SelfDelimiting (f : α → String) (a : α) : Prop :=
  ∀ b xs ys, (f a).toList ++ xs = (f b).toList ++ ys → a = b ∧ xs = ys

theorem SelfDelimiting.eq {a b : α} (h : SelfDelimiting f a) (heq : f a = f b) : a = b :=
  (h b [] [] (congrArg (fun text => text.toList ++ []) heq)).1

def hexValue (c : Char) : Nat := if c.isDigit then c.toNat - 48 else c.toNat - 87

/-- The character that a backslash and what is behind it stand for. -/
def unescapeBehind : List Char → Option (Char × List Char)
  | 'u' :: _ :: _ :: h :: l :: rest => some (Char.ofNat (16 * hexValue h + hexValue l), rest)
  | 'b' :: rest => some ('\x08', rest)
  | 'f' :: rest => some ('\x0c', rest)
  | 'n' :: rest => some ('\n', rest)
  | 'r' :: rest => some ('\r', rest)
  | 't' :: rest => some ('\t', rest)
  | c :: rest => some (c, rest)
  | [] => none

/-- Takes a character from the front, or an escape of one. -/
def unescape : List Char → Option (Char × List Char)
  | [] => none
  | c :: rest => if c = '\\' then unescapeBehind rest else some (c, rest)

theorem hexValue_digitChar {n : Nat} (h : n < 16) : hexValue (Nat.digitChar n) = n := by
  have hall : ∀ n < 16, hexValue (Nat.digitChar n) = n := by decide
  exact hall n h

theorem unescape_control (h : c < ' ') :
    unescape (['\\', 'u', '0', '0', Nat.digitChar (c.toNat / 16), Nat.digitChar (c.toNat % 16)] ++
      xs) = some (c, xs) := by
  have hlt : c.toNat < 32 := h
  have hvalue : 16 * (c.toNat / 16) + c.toNat % 16 = c.toNat := Nat.div_add_mod c.toNat 16
  simp only [List.cons_append, List.nil_append, unescape, if_true, unescapeBehind]
  rw [hexValue_digitChar (by omega), hexValue_digitChar (by omega), hvalue, Char.ofNat_toNat]

theorem unescape_escape (c : Char) (xs : List Char) : unescape (escape c ++ xs) = some (c, xs) := by
  by_cases hnamed : c ∈ ['"', '\\', '\x08', '\x0c', '\n', '\r', '\t']
  · simp only [List.mem_cons, List.not_mem_nil, or_false] at hnamed
    rcases hnamed with rfl | rfl | rfl | rfl | rfl | rfl | rfl <;> rfl
  · simp only [List.mem_cons, List.not_mem_nil, or_false, not_or] at hnamed
    obtain ⟨hquote, hbackslash, hb, hf, hn, hr, ht⟩ := hnamed
    rw [escape, if_neg hquote, if_neg hbackslash, if_neg hb, if_neg hf, if_neg hn, if_neg hr,
      if_neg ht]
    split
    · exact unescape_control ‹_›
    · exact if_neg hbackslash

theorem escape_append_inj (h : escape c ++ xs = escape d ++ ys) : c = d ∧ xs = ys := by
  have hboth := unescape_escape c xs
  rw [h, unescape_escape] at hboth
  obtain ⟨rfl, rfl⟩ := Prod.mk.inj (Option.some.inj hboth)
  exact ⟨rfl, rfl⟩

theorem head?_escape_ne (c : Char) (xs : List Char) : (escape c ++ xs).head? ≠ some '"' := by
  intro h
  obtain ⟨ys, hys⟩ := List.head?_eq_some_iff.mp h
  have hread := unescape_escape c xs
  rw [hys] at hread
  -- A quote stands for itself only where it is not escaped, but it always is.
  obtain ⟨rfl, _⟩ := Prod.mk.inj (Option.some.inj hread)
  cases hys

theorem flatMap_escape_inj {cs ds : List Char}
    (h : cs.flatMap escape ++ '"' :: xs = ds.flatMap escape ++ '"' :: ys) : cs = ds ∧ xs = ys := by
  induction cs generalizing ds with
  | nil =>
    cases ds with
    | nil => exact ⟨rfl, (List.cons.inj h).2⟩
    | cons d ds =>
      rw [List.flatMap_cons, List.append_assoc] at h
      exact absurd (congrArg List.head? h).symm (head?_escape_ne d _)
  | cons c cs ih =>
    cases ds with
    | nil =>
      rw [List.flatMap_cons, List.append_assoc] at h
      exact absurd (congrArg List.head? h) (head?_escape_ne c _)
    | cons d ds =>
      rw [List.flatMap_cons, List.flatMap_cons, List.append_assoc, List.append_assoc] at h
      obtain ⟨rfl, htail⟩ := escape_append_inj h
      obtain ⟨rfl, hrest⟩ := ih htail
      exact ⟨rfl, hrest⟩

theorem toList_quote (s : String) :
    (quote s).toList = '"' :: (s.toList.flatMap escape ++ ['"']) := by
  simp [quote]

theorem selfDelimiting_quote (s : String) : SelfDelimiting quote s := by
  intro t xs ys h
  rw [toList_quote, toList_quote, List.cons_append, List.cons_append, List.append_assoc,
    List.append_assoc] at h
  obtain ⟨hchars, hrest⟩ := flatMap_escape_inj (List.cons.inj h).2
  exact ⟨String.toList_inj.mp hchars, hrest⟩

/-- Parts behind the first of a list, up to its end, are told apart by what stands before them. -/
theorem flatMap_inj {sep fin : List Char} (hsep : sep.head? = some c) (hfin : fin.head? = some d)
    (hne : c ≠ d) (hf : ∀ a ∈ as, SelfDelimiting f a)
    (h : as.flatMap (fun a => sep ++ (f a).toList) ++ (fin ++ xs) =
      bs.flatMap (fun b => sep ++ (f b).toList) ++ (fin ++ ys)) : as = bs ∧ xs = ys := by
  have hother : ∀ us vs : List Char, sep ++ us ≠ fin ++ vs := by
    intro us vs heq
    have hheads := congrArg List.head? heq
    rw [List.head?_append, List.head?_append, hsep, hfin] at hheads
    exact hne (Option.some.inj hheads)
  induction as generalizing bs with
  | nil =>
    cases bs with
    | nil => exact ⟨rfl, List.append_cancel_left h⟩
    | cons b bs =>
      rw [List.flatMap_cons, List.append_assoc, List.append_assoc] at h
      exact absurd h.symm (hother _ _)
  | cons a as ih =>
    obtain ⟨ha, has⟩ := List.forall_mem_cons.mp hf
    cases bs with
    | nil =>
      rw [List.flatMap_cons, List.append_assoc, List.append_assoc] at h
      exact absurd h (hother _ _)
    | cons b bs =>
      simp only [List.flatMap_cons, List.append_assoc] at h
      obtain ⟨rfl, htail⟩ := ha b _ _ (List.append_cancel_left h)
      obtain ⟨rfl, hrest⟩ := ih has htail
      exact ⟨rfl, hrest⟩

end ResourceQuery.Json
