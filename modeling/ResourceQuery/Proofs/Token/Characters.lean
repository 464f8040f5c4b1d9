import ResourceQuery.Text.Classes
import ResourceQuery.Token

/-!
# How the classes of characters lie to each other

No blank is a name character, so a blank ends a name. Digits are characters of names and of
URI references but begin no name. Blanks and digits are few: what holds of all of them is
computed over the list of them.
-/

namespace ResourceQuery

set_option autoImplicit false

variable {c : Char}

namespace Text

def charsBetween (low high : Nat) : List Char :=
  (List.range' low (high + 1 - low)).map Char.ofNat

theorem mem_charsBetween {low high : Nat} (hlow : low ≤ c.toNat) (hhigh : c.toNat ≤ high) :
    c ∈ charsBetween low high := by
  refine List.mem_map.mpr ⟨c.toNat, ?_, Char.ofNat_toNat c⟩
  rw [List.mem_range'_1]
  omega

/-- The characters in the ranges of a table. -/
def Ranges.chars (table : Ranges) : List Char := table.list.flatMap fun r => charsBetween r.1 r.2

theorem Ranges.mem_chars_of_contains {table : Ranges} (h : table.contains c.toNat = true) :
    c ∈ table.chars := by
  obtain ⟨r, hr, hlow, hhigh⟩ := contains_iff.mp h
  exact List.mem_flatMap.mpr ⟨r, hr, mem_charsBetween hlow hhigh⟩

def blanks : List Char := blankRanges.chars

theorem mem_blanks_of_isBlank (h : isBlank c = true) : c ∈ blanks :=
  Ranges.mem_chars_of_contains h

def digits : List Char := charsBetween '0'.toNat '9'.toNat

theorem mem_digits_of_isDigit (h : c.isDigit = true) : c ∈ digits := by
  simp only [Char.isDigit, Bool.and_eq_true, decide_eq_true_eq, ge_iff_le,
    UInt32.le_iff_toNat_le] at h
  exact mem_charsBetween h.1 h.2

end Text

open Text

theorem not_isNameChar_of_isBlank (h : isBlank c = true) : isNameChar c = false := by
  have hnone : blanks.any isNameChar = false := by decide +kernel
  exact Bool.eq_false_iff.mpr (List.any_eq_false.mp hnone c (mem_blanks_of_isBlank h))

theorem not_isBlank_of_isNameChar (h : isNameChar c = true) : isBlank c = false := by
  apply Bool.eq_false_iff.mpr
  intro hblank
  rw [not_isNameChar_of_isBlank hblank] at h
  cases h

theorem isNameChar_of_isDigit (h : c.isDigit = true) : isNameChar c = true := by
  have hall : digits.all isNameChar = true := by decide +kernel
  exact List.all_eq_true.mp hall c (mem_digits_of_isDigit h)

theorem isUriChar_of_isDigit (h : c.isDigit = true) : isUriChar c = true := by
  have hall : digits.all isUriChar = true := by decide +kernel
  exact List.all_eq_true.mp hall c (mem_digits_of_isDigit h)

theorem not_isDigit_of_isNameStart (h : isNameStart c = true) : c.isDigit = false := by
  apply Bool.eq_false_iff.mpr
  intro hdigit
  have hnone : digits.any isNameStart = false := by decide +kernel
  exact List.any_eq_false.mp hnone c (mem_digits_of_isDigit hdigit) h

end ResourceQuery
