import Mathlib.Algebra.Order.Field.Rat
import Mathlib.Tactic.Linarith
import Mathlib.Tactic.NormNum
import ResourceQuery.Proofs.Decimal.Digits

/-!
# What digits are worth

A decimal stands for a fraction of its magnitude by a power of ten. Digits that fit are read as
exactly the number that they write, whatever zeros stand in front of them or at their end, and
the decimal is written back as they are, less the zeros in front. Digits that do not fit are never
rounded.
-/

namespace ResourceQuery.Decimal

set_option autoImplicit false

open Token

variable {d : Decimal} {ds fs : List Char} {n : Nat}

/-- The number that a decimal stands for. -/
def value (d : Decimal) : Rat := (if d.negative then -1 else 1) * d.magnitude / 10 ^ d.scale

/-- Decimals are compared by the numbers that they stand for. -/
theorem agrees_iff_value_eq {a b : Decimal} : a.agrees b = true ↔ a.value = b.value := by
  have hagrees : a.agrees b = true ↔
      (a.magnitude : Rat) * 10 ^ b.scale = b.magnitude * 10 ^ a.scale ∧
        (a.negative = b.negative ∨ a.magnitude = 0) := by
    simp only [agrees, Bool.and_eq_true, Bool.or_eq_true, beq_iff_eq]
    exact_mod_cast Iff.rfl
  have hscale : ∀ k : Nat, (0 : Rat) < 10 ^ k := fun k => by positivity
  have ha : 0 ≤ (a.magnitude : Rat) * 10 ^ b.scale := by positivity
  have hb : 0 ≤ (b.magnitude : Rat) * 10 ^ a.scale := by positivity
  have hzero : (a.magnitude : Rat) * 10 ^ b.scale = 0 ↔ a.magnitude = 0 := by
    rw [mul_eq_zero, or_iff_left (hscale _).ne', Nat.cast_eq_zero]
  rw [hagrees, value, value, div_eq_div_iff (hscale _).ne' (hscale _).ne', ← hzero, mul_assoc,
    mul_assoc]
  cases a.negative <;> cases b.negative
  case false.false | true.true => simp
  -- numbers of different signs are the same only where both are zero
  all_goals
    simp only [Bool.false_eq_true, reduceCtorEq, false_or, if_true, if_false]
    constructor
    · rintro ⟨heq, hzero⟩
      linarith
    · intro heq
      constructor <;> linarith

/-- Digits without the zeros in front, but for the last digit of zero. -/
def significant (ds : List Char) : List Char :=
  match ds.dropWhile (· == '0') with
  | [] => ['0']
  | c :: cs => c :: cs

theorem significant_zero_cons : significant ('0' :: ds) = significant ds := rfl

theorem significant_cons {c : Char} (h : c ≠ '0') : significant (c :: ds) = c :: ds := by
  rw [significant, List.dropWhile_cons_of_neg (by simpa using h)]

theorem length_significant_le : (significant ds).length ≤ ds.length + 1 := by
  induction ds with
  | nil => exact Nat.le_refl _
  | cons c cs ih =>
    by_cases hc : c = '0'
    · subst hc
      rw [significant_zero_cons, List.length_cons]
      omega
    · rw [significant_cons hc]
      omega

theorem digit_lt_ten {c : Char} (h : c.isDigit = true) : c.toNat - '0'.toNat < 10 := by
  obtain ⟨hlower, hupper⟩ := Char.isDigit_iff_toNat.mp h
  have hzero : '0'.toNat = 48 := rfl
  have hnine : '9'.toNat = 57 := rfl
  omega

theorem digitChar_digit {c : Char} (h : c.isDigit = true) :
    Nat.digitChar (c.toNat - '0'.toNat) = c := by
  obtain ⟨hlower, _⟩ := Char.isDigit_iff_toNat.mp h
  have hzero : '0'.toNat = 48 := rfl
  apply Char.toNat_inj.mp
  rw [Nat.toNat_digitChar_of_lt_ten (digit_lt_ten h)]
  omega

theorem toDigits_digit {c : Char} (h : c.isDigit = true) :
    Nat.toDigits 10 (c.toNat - '0'.toNat) = [c] := by
  rw [Nat.toDigits_of_lt_base (digit_lt_ten h), digitChar_digit h]

/-- Digits behind a number that is not zero are the last digits of a larger one. -/
theorem toDigits_append (hn : 0 < n) (h : ∀ c ∈ ds, c.isDigit = true) :
    Nat.toDigits 10 n ++ ds = Nat.toDigits 10 (Nat.ofDigitChars 10 ds n) := by
  induction ds generalizing n with
  | nil => exact List.append_nil _
  | cons c cs ih =>
    obtain ⟨hc, hcs⟩ := List.forall_mem_cons.mp h
    have hnext : 0 < 10 * n + (c.toNat - '0'.toNat) := by omega
    calc Nat.toDigits 10 n ++ c :: cs
      _ = (Nat.toDigits 10 n ++ Nat.toDigits 10 (c.toNat - '0'.toNat)) ++ cs := by
        rw [toDigits_digit hc, List.append_assoc, List.singleton_append]
      _ = Nat.toDigits 10 (10 * n + (c.toNat - '0'.toNat)) ++ cs := by
        rw [Nat.toDigits_append_toDigits (by decide) hn (digit_lt_ten hc)]
      _ = Nat.toDigits 10 (Nat.ofDigitChars 10 (c :: cs) n) := by
        rw [ih hnext hcs, Nat.ofDigitChars_cons]

theorem toDigits_digitsValue (h : ∀ c ∈ ds, c.isDigit = true) :
    Nat.toDigits 10 (digitsValue ds) = significant ds := by
  induction ds with
  | nil => rfl
  | cons c cs ih =>
    obtain ⟨hc, hcs⟩ := List.forall_mem_cons.mp h
    by_cases hzero : c = '0'
    · subst hzero
      exact ih hcs
    · have hpos : 0 < c.toNat - '0'.toNat := by
        have hlower := (Char.isDigit_iff_toNat.mp hc).1
        have hne : c.toNat ≠ '0'.toNat := fun heq => hzero (Char.toNat_inj.mp heq)
        omega
      rw [significant_cons hzero, digitsValue_eq_ofDigitChars, Nat.ofDigitChars_cons, Nat.mul_zero,
        Nat.zero_add, ← toDigits_append hpos hcs, toDigits_digit hc]
      rfl

/-- A fraction with a zero in front of it is its number, filled up with zeros. -/
theorem replicate_significant (fs : List Char) :
    List.replicate (fs.length + 1 - (significant fs).length) '0' ++ significant fs = '0' :: fs := by
  induction fs with
  | nil => rfl
  | cons c cs ih =>
    by_cases hc : c = '0'
    · subst hc
      have hle : (significant cs).length ≤ cs.length + 1 := length_significant_le
      rw [significant_zero_cons, List.length_cons, Nat.succ_sub hle, List.replicate_succ,
        List.cons_append, ih]
    · rw [significant_cons hc, List.length_cons, Nat.add_sub_cancel_left]
      rfl

/-- A number that is filled up with zeros until it has a whole part is the digits that it comes
of, less the zeros in front. -/
theorem replicate_significant_append (ds fs : List Char) :
    List.replicate (fs.length + 1 - (significant (ds ++ fs)).length) '0' ++ significant (ds ++ fs) =
      significant ds ++ fs := by
  induction ds with
  | nil => exact replicate_significant fs
  | cons c cs ih =>
    by_cases hc : c = '0'
    · subst hc
      exact ih
    · have hlength : fs.length + 1 - (c :: (cs ++ fs)).length = 0 := by
        rw [List.length_cons, List.length_append]
        omega
      rw [List.cons_append, significant_cons hc, significant_cons hc, hlength]
      rfl

/-- The digits fit into a decimal. -/
def Fits (ds fs : List Char) : Prop := fs.length ≤ 28 ∧ digitsValue (ds ++ fs) < 2 ^ 96

instance : Decidable (Fits ds fs) := inferInstanceAs (Decidable (_ ∧ _))

/-- The decimal is exactly the number that a sign and digits write, and is written with them, less
the zeros in front. -/
structure Exact (d : Decimal) (minus : Bool) (ds fs : List Char) : Prop where
  value : d.value = (if minus then -1 else 1) * digitsValue (ds ++ fs) / 10 ^ fs.length
  scale : d.scale = fs.length
  negative : d.negative = minus
  text : d.text = (if minus then "-" else "") ++ String.ofList (numeral (significant ds) fs)

theorem exact_of_parts (hds : ∀ c ∈ ds, c.isDigit = true) (hfs : ∀ c ∈ fs, c.isDigit = true)
    (hmagnitude : d.magnitude = digitsValue (ds ++ fs)) (hscale : d.scale = fs.length) :
    d.Exact d.negative ds fs where
  value := by rw [Decimal.value, hmagnitude, hscale]
  scale := hscale
  negative := rfl
  text := by
    have hpadded : d.whole ++ d.fraction = significant ds ++ fs := by
      rw [whole_append_fraction, padded, hmagnitude, hscale,
        toDigits_digitsValue (List.forall_mem_append.mpr ⟨hds, hfs⟩), replicate_significant_append]
    obtain ⟨hwhole, hfraction⟩ := List.append_inj' hpadded (d.length_fraction.trans hscale)
    rw [text_eq_digits, ← String.ofList_toList (s := d.digits), toList_digits, hwhole, hfraction]

/-- Digits that fit are read exactly. -/
theorem exists_exact_of_fits (minus : Bool) (hds : ∀ c ∈ ds, c.isDigit = true)
    (hfs : ∀ c ∈ fs, c.isDigit = true) (h : Fits ds fs) :
    ∃ d, ofDigits minus (numeral ds fs) = .ok d ∧ d.Exact minus ds fs := by
  let d : Decimal := ⟨minus, digitsValue (ds ++ fs), fs.length, h.2, h.1⟩
  refine ⟨d, (ofDigits_eq_ok_iff hds).mpr ?_, exact_of_parts hds hfs rfl rfl⟩
  exact d.ofParts?_eq_some

/-- Digits that do not fit are refused, and not rounded. -/
theorem exists_misfit_of_not_fits (minus : Bool) (hds : ∀ c ∈ ds, c.isDigit = true)
    (h : ¬ Fits ds fs) :
    ∃ reason, ofDigits minus (numeral ds fs) = .error reason := by
  cases hread : ofDigits minus (numeral ds fs) with
  | error reason => exact ⟨reason, rfl⟩
  | ok d =>
    have hparts := (ofDigits_eq_ok_iff hds).mp hread
    rw [ofParts?, dif_neg fun hfit => h ⟨hfit.2, hfit.1⟩] at hparts
    cases hparts

end ResourceQuery.Decimal
