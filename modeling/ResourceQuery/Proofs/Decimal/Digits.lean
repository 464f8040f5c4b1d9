import ResourceQuery.Decimal
import ResourceQuery.Proofs.Lexer.Extents
import ResourceQuery.Proofs.Token.Characters

/-!
# Decimals from their own digits

A decimal is written with its sign, which is a token of its own, and with digits that the reader
of decimals takes back to it: padding with zeros adds nothing to the magnitude, and the length of
the fraction is the scale.
-/

namespace ResourceQuery.Decimal

set_option autoImplicit false

open Reading Token

variable {d : Decimal} {ds fs : List Char}

/-- The digits of the magnitude, with zeros in front so that there is a whole part. -/
def padded (d : Decimal) : List Char :=
  List.replicate (d.scale + 1 - (Nat.toDigits 10 d.magnitude).length) '0' ++
    Nat.toDigits 10 d.magnitude

def whole (d : Decimal) : List Char := d.padded.take (d.padded.length - d.scale)

def fraction (d : Decimal) : List Char := d.padded.drop (d.padded.length - d.scale)

/-- Digits as they are written, with a point before those of the fraction if there are any. -/
def numeral (ds fs : List Char) : List Char := ds ++ if fs = [] then [] else '.' :: fs

/-- A decimal as it is written without its sign. -/
def digits (d : Decimal) : String :=
  String.ofList (d.whole ++ if d.scale = 0 then [] else '.' :: d.fraction)

theorem text_eq_digits (d : Decimal) : d.text = (if d.negative then "-" else "") ++ d.digits := by
  apply String.toList_inj.mp
  unfold text digits whole fraction padded
  by_cases h : d.scale = 0 <;> simp [h]

theorem digitsValue_eq_ofDigitChars (ds : List Char) :
    digitsValue ds = Nat.ofDigitChars 10 ds 0 := Nat.ofDigitChars_eq_foldl.symm

theorem digitsValue_append (ds fs : List Char) :
    digitsValue (ds ++ fs) = Nat.pow 10 fs.length * digitsValue ds + digitsValue fs := by
  simp only [digitsValue_eq_ofDigitChars]
  rw [Nat.ofDigitChars_append, Nat.ofDigitChars_eq_ofDigitChars_zero]
  rfl

theorem digitsValue_le_append (ds fs : List Char) : digitsValue ds ≤ digitsValue (ds ++ fs) := by
  rw [digitsValue_append]
  have hone : 1 ≤ Nat.pow 10 fs.length := Nat.one_le_pow _ _ (by decide)
  exact Nat.le_add_right_of_le (Nat.le_mul_of_pos_left _ hone)

theorem digitsValue_padded (d : Decimal) : digitsValue d.padded = d.magnitude := by
  rw [padded, digitsValue_append]
  simp only [digitsValue_eq_ofDigitChars]
  rw [Nat.ofDigitChars_replicate_zero, Nat.ofDigitChars_ten_toDigits]
  simp only [Nat.mul_zero, Nat.zero_add]

theorem isDigit_of_mem_padded {c : Char} (h : c ∈ d.padded) : c.isDigit = true := by
  rcases List.mem_append.mp h with hzero | hdigit
  · rw [List.eq_of_mem_replicate hzero]
    decide
  · exact Nat.isDigit_of_mem_toDigits (by decide) (by decide) hdigit

theorem scale_lt_length_padded (d : Decimal) : d.scale < d.padded.length := by
  rw [padded, List.length_append, List.length_replicate]
  omega

theorem whole_append_fraction (d : Decimal) : d.whole ++ d.fraction = d.padded :=
  List.take_append_drop _ _

theorem length_fraction (d : Decimal) : d.fraction.length = d.scale := by
  have := d.scale_lt_length_padded
  rw [fraction, List.length_drop]
  omega

theorem isDigits_whole (d : Decimal) : IsDigits d.whole := by
  constructor
  · intro hnil
    have hlength := d.scale_lt_length_padded
    rcases List.take_eq_nil_iff.mp hnil with h | h
    · omega
    · rw [h] at hlength
      exact Nat.not_lt_zero _ hlength
  · intro c hc
    exact isDigit_of_mem_padded (List.mem_of_mem_take hc)

theorem isDigits_fraction (h : d.scale ≠ 0) : IsDigits d.fraction := by
  constructor
  · intro hnil
    rw [← d.length_fraction, hnil] at h
    exact h rfl
  · intro c hc
    exact isDigit_of_mem_padded (List.mem_of_mem_drop hc)

theorem toList_digits (d : Decimal) : d.digits.toList = numeral d.whole d.fraction := by
  have hnil : d.fraction = [] ↔ d.scale = 0 := by
    rw [← d.length_fraction, List.length_eq_zero_iff]
  simp only [digits, numeral, String.toList_ofList, hnil]

theorem isNumeral_digits (d : Decimal) : IsNumeral d.digits.toList := by
  rw [digits, String.toList_ofList]
  by_cases h : d.scale = 0
  · rw [if_pos h, List.append_nil]
    exact .whole d.isDigits_whole
  · rw [if_neg h]
    exact .fraction d.isDigits_whole (isDigits_fraction h)

theorem ofParts?_eq_some (d : Decimal) :
    ofParts? d.negative d.magnitude d.scale = some d := by
  rw [ofParts?, dif_pos ⟨d.magnitude_lt, d.scale_le⟩]

section

variable (hds : ∀ c ∈ ds, c.isDigit = true)
include hds

theorem bne_point_of_isDigit : ∀ c ∈ ds, (c != '.') = true := by
  intro c hc
  apply bne_iff_ne.mpr
  rintro rfl
  exact absurd (hds _ hc) (by decide)

theorem takeWhile_numeral : (numeral ds fs).takeWhile (· != '.') = ds := by
  apply takeWhile_append_of_stops (bne_point_of_isDigit hds)
  split
  · exact stops_nil
  · exact stops_cons (by decide)

theorem drop_dropWhile_numeral : ((numeral ds fs).dropWhile (· != '.')).drop 1 = fs := by
  by_cases hfs : fs = []
  · have hstops : Stops (· != '.') (if fs = [] then [] else '.' :: fs) := if_pos hfs ▸ stops_nil
    rw [numeral, dropWhile_append_of_stops (bne_point_of_isDigit hds) hstops, if_pos hfs, hfs]
    rfl
  · have hstops : Stops (· != '.') ('.' :: fs) := stops_cons (by decide)
    rw [numeral, if_neg hfs, dropWhile_append_of_stops (bne_point_of_isDigit hds) hstops]
    rfl

/-- A fraction makes the magnitude no smaller, so a whole part that is too large cannot fit. -/
theorem ofDigits_eq_ok_iff {negative : Bool} :
    ofDigits negative (numeral ds fs) = .ok d ↔
      ofParts? negative (digitsValue (ds ++ fs)) fs.length = some d := by
  unfold ofDigits
  simp only [takeWhile_numeral hds, drop_dropWhile_numeral hds]
  cases hparts : ofParts? negative (digitsValue (ds ++ fs)) fs.length with
  | none =>
    split <;> exact ⟨nofun, nofun⟩
  | some d' =>
    have hsmall : ¬ Nat.pow 2 96 ≤ digitsValue ds := by
      intro hlarge
      have hle := Nat.le_trans hlarge (digitsValue_le_append ds fs)
      rw [ofParts?, dif_neg fun h => Nat.not_le.mpr h.1 hle] at hparts
      cases hparts
    rw [if_neg hsmall]
    exact ⟨fun h => congrArg _ (Except.ok.inj h), fun h => congrArg _ (Option.some.inj h)⟩

end

theorem ofDigits_digits (d : Decimal) : ofDigits d.negative d.digits.toList = .ok d := by
  rw [toList_digits, ofDigits_eq_ok_iff d.isDigits_whole.digits, whole_append_fraction,
    digitsValue_padded, length_fraction, ofParts?_eq_some]

end ResourceQuery.Decimal
