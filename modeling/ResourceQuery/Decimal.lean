/-!
# Decimal numbers

A decimal has a sign, a magnitude of less than 2^96 and a scale, which is how many of its digits
stand after the point, at most 28. The scale is part of how a decimal is written and not of its
value, and zero may have a sign.
-/

namespace ResourceQuery

set_option autoImplicit false

structure Decimal where
  negative : Bool
  magnitude : Nat
  scale : Nat
  magnitude_lt : magnitude < Nat.pow 2 96
  scale_le : scale ≤ 28
  deriving DecidableEq

namespace Decimal

/-- Why digits are no decimal. -/
inductive Misfit where
  | tooManyDigits
  | tooPrecise
  deriving DecidableEq, Repr

def Misfit.message : Misfit → String
  | tooManyDigits => "Invalid decimal: overflow from too many digits"
  | tooPrecise => "Number has a high precision that can not be represented."

def ofParts? (negative : Bool) (magnitude scale : Nat) : Option Decimal :=
  if h : magnitude < Nat.pow 2 96 ∧ scale ≤ 28 then some ⟨negative, magnitude, scale, h.1, h.2⟩
  else none

def digitsValue (digits : List Char) : Nat :=
  digits.foldl (fun n c => 10 * n + (c.toNat - '0'.toNat)) 0

/-- Reads digits with or without a point among them. A whole part that is too large is told
apart from a fraction that is too long, or that makes the magnitude too large. -/
def ofDigits (negative : Bool) (literal : List Char) : Except Misfit Decimal :=
  let whole := literal.takeWhile (· != '.')
  let fraction := (literal.dropWhile (· != '.')).drop 1
  if Nat.pow 2 96 ≤ digitsValue whole then .error .tooManyDigits
  else
    match ofParts? negative (digitsValue (whole ++ fraction)) fraction.length with
    | some d => .ok d
    | none => .error .tooPrecise

def agrees (a b : Decimal) : Bool :=
  a.magnitude * Nat.pow 10 b.scale == b.magnitude * Nat.pow 10 a.scale &&
    (a.negative == b.negative || a.magnitude == 0)

/-- The sign if it is minus, the whole part, and after a point as many digits as the scale
says. -/
def text (d : Decimal) : String :=
  let digits := Nat.toDigits 10 d.magnitude
  let padded := List.replicate (d.scale + 1 - digits.length) '0' ++ digits
  let whole := padded.take (padded.length - d.scale)
  let fraction := padded.drop (padded.length - d.scale)
  (if d.negative then "-" else "") ++ String.ofList whole ++
    (if d.scale = 0 then "" else "." ++ String.ofList fraction)

end Decimal

end ResourceQuery
