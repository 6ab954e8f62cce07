import SchemeTyping.Number.Flonum

/-!
# The fewest digits that read back

A flonum stands for every real number that rounds to it.  `shortest` finds the decimal with the
fewest digits among them, and of those the nearest to the flonum itself.

For one digit, two digits and so on it looks at the two neighbours of the value on the decimal grid
of that many digits.  If any point of a grid lies in the interval, one of these two does, so the
first grid with a hit gives the fewest digits.  Seventeen digits always suffice.
-/

set_option autoImplicit false

namespace SchemeTyping.Flonum

/-- A positive decimal `digits · 10 ^ exponent`. -/
structure Decimal where
  digits : Nat
  exponent : Int
  deriving DecidableEq, Repr, Inhabited

/-- The reals that round to a positive flonum: the value and the two ends over one denominator, and
whether the ends belong to the interval. -/
structure Interval where
  low : Nat
  value : Nat
  high : Nat
  den : Nat
  closed : Bool
  deriving DecidableEq, Repr, Inhabited

/-- The interval of `mantissa · 2 ^ exponent`.  The lower neighbour of a power of two is twice as
near as the upper one, except at the bottom of the range. -/
def interval (mantissa : Nat) (exponent : Int) : Interval :=
  let e := exponent - 2
  let unit := if 0 ≤ e then Nat.pow 2 e.toNat else 1
  let den := if 0 ≤ e then 1 else Nat.pow 2 (-e).toNat
  let below := if mantissa == mantissaBound / 2 && leastExponent < exponent then 1 else 2
  { low := (4 * mantissa - below) * unit
    value := 4 * mantissa * unit
    high := (4 * mantissa + 2) * unit
    den := den
    closed := mantissa % 2 == 0 }

/-- The greatest `e` with `10 ^ e ≤ num / den`, for positive `num` and `den`. -/
def decimalExponent (num den : Nat) : Int :=
  if den ≤ num then (digitCount (num / den) : Int) - 1
  else
    let n := digitCount (den / num)
    if den ≤ num * Nat.pow 10 (n - 1) then -((n : Int) - 1) else -(n : Int)

/-- Both sides of a comparison of `n · 10 ^ e` with `x / den`, freed from fractions. -/
def crossed (n : Nat) (e : Int) (x den : Nat) : Nat × Nat :=
  if 0 ≤ e then (n * Nat.pow 10 e.toNat * den, x) else (n * den, x * Nat.pow 10 (-e).toNat)

/-- Whether `n · 10 ^ e` lies in the interval. -/
def Interval.holds (i : Interval) (n : Nat) (e : Int) : Bool :=
  let low := crossed n e i.low i.den
  let high := crossed n e i.high i.den
  if i.closed then low.2 ≤ low.1 && high.1 ≤ high.2 else low.2 < low.1 && high.1 < high.2

/-- The better of the two neighbours of the value on the grid of `count` digits, if one of them
lies in the interval: the nearer one, and of two equally near the even one. -/
def Interval.neighbour? (i : Interval) (top : Int) (count : Nat) : Option Decimal :=
  let e := top - count + 1
  let scaled :=
    if 0 ≤ e then (i.value, i.den * Nat.pow 10 e.toNat)
    else (i.value * Nat.pow 10 (-e).toNat, i.den)
  let n := scaled.1 / scaled.2
  let remainder := scaled.1 % scaled.2
  match i.holds n e, i.holds (n + 1) e with
  | true, true =>
    let up := scaled.2 < 2 * remainder || (2 * remainder == scaled.2 && n % 2 == 1)
    some ⟨if up then n + 1 else n, e⟩
  | true, false => some ⟨n, e⟩
  | false, true => some ⟨n + 1, e⟩
  | false, false => none

/-- The shortest decimal that reads back as `mantissa · 2 ^ exponent`, and the nearest such one. -/
def shortest (mantissa : Nat) (exponent : Int) : Decimal :=
  let i := interval mantissa exponent
  let top := decimalExponent i.value i.den
  ((List.range 17).findSome? fun k ↦ i.neighbour? top (k + 1)).getD ⟨0, 0⟩

end SchemeTyping.Flonum
