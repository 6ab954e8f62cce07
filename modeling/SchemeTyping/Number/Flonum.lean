/-!
# Floating-point numbers

A flonum is a sign, a mantissa below `2 ^ 53` and a power of two, or an infinity.  The numbers are
exact data: rounding a ratio of naturals to the nearest flonum is integer arithmetic, so nothing
here depends on the machine.

`Flonum.ofRatio` rounds a positive ratio to the nearest flonum, a half to the even mantissa.
`Flonum.ofDecimal` reads `digits · 10 ^ exponent`; a value far beyond either end of the range is
recognised from its number of digits, so that a huge exponent costs nothing.
-/

set_option autoImplicit false

namespace SchemeTyping

/-- `± mantissa · 2 ^ exponent`, or an infinity. -/
inductive Flonum
  | finite (negative : Bool) (mantissa : Nat) (exponent : Int)
  | infinite (negative : Bool)
  deriving DecidableEq, Repr, Inhabited

namespace Flonum

/-- The least exponent of two that a flonum has. -/
def leastExponent : Int := -1074

/-- The greatest exponent of two that a flonum has. -/
def greatestExponent : Int := 971

/-- Mantissas stay below this bound. -/
def mantissaBound : Nat := Nat.pow 2 53

/-- The zero of the given sign. -/
def zero (negative : Bool) : Flonum := .finite negative 0 leastExponent

/-- The ratio `num / den` divided by `2 ^ e`, as a ratio of naturals. -/
def scaleRatio (num den : Nat) (e : Int) : Nat × Nat :=
  if 0 ≤ e then (num, den * Nat.pow 2 e.toNat) else (num * Nat.pow 2 (-e).toNat, den)

/-- The quotient rounded to the nearest natural, a half to the even one. -/
def roundQuotient (num den : Nat) : Nat :=
  let q := num / den
  let r := num % den
  if den < 2 * r || (2 * r == den && q % 2 == 1) then q + 1 else q

/-- The greatest `e` with `2 ^ e ≤ num / den`, for positive `num` and `den`. -/
def binaryExponent (num den : Nat) : Int :=
  let e : Int := (num.log2 : Int) - den.log2
  let scaled := scaleRatio num den e
  if scaled.2 ≤ scaled.1 then e else e - 1

/-- The flonum nearest to `± num / den`. -/
def ofRatio (negative : Bool) (num den : Nat) : Flonum :=
  if num = 0 then zero negative
  else
    let e := max (binaryExponent num den - 52) leastExponent
    let scaled := scaleRatio num den e
    let m := roundQuotient scaled.1 scaled.2
    let carried := m == mantissaBound
    let mantissa := if carried then m / 2 else m
    let exponent := if carried then e + 1 else e
    if greatestExponent < exponent then .infinite negative else .finite negative mantissa exponent

/-- How many decimal digits a natural number is written with. -/
def digitCount (n : Nat) : Nat := (Nat.toDigits 10 n).length

/-- The flonum nearest to `± digits · 10 ^ exponent`.  A positive value lies below
`10 ^ (exponent + digitCount digits)` and not below a tenth of it, which settles the values that are
out of range without computing them. -/
def ofDecimal (negative : Bool) (digits : Nat) (exponent : Int) : Flonum :=
  let top := exponent + digitCount digits
  if digits = 0 || top < -325 then zero negative
  else if 310 < top then .infinite negative
  else if 0 ≤ exponent then ofRatio negative (digits * Nat.pow 10 exponent.toNat) 1
  else ofRatio negative digits (Nat.pow 10 (-exponent).toNat)

/-- Whether the number is a whole one; an infinity is not. -/
def isInteger : Flonum → Bool
  | .finite _ m e => 0 ≤ e || m % Nat.pow 2 (-e).toNat == 0
  | .infinite _ => false

end Flonum

end SchemeTyping
