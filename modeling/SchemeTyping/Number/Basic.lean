import SchemeTyping.Number.Shortest
import SchemeTyping.Text.Digit

/-!
# Numbers

A number is exact, an integer of any size, or inexact, a flonum.  `Numeral` is the grammar of number
words: an optional sign, digits with at most one point among or before or after them, and an
optional power of ten.  `Numeral.read?` takes a whole word or nothing.

A numeral of digits alone is exact as long as it has no more than `Numeral.exactLimit` digits, and
inexact otherwise.
-/

set_option autoImplicit false

namespace SchemeTyping

/-- An integer of any size or a flonum. -/
inductive Number
  | exact (value : Int)
  | inexact (value : Flonum)
  deriving DecidableEq, Repr, Inhabited

namespace Number

/-- Whether the value is a whole number. -/
def isInteger : Number → Bool
  | .exact _ => true
  | .inexact x => x.isInteger

/-! ## Written numbers -/

/-- How inexact numbers are written. -/
structure Style where
  /-- The least power of ten of the first digit that is written without an exponent. -/
  leastPositional : Int
  /-- The least power of ten of the first digit that needs an exponent again. -/
  leastScientific : Int
  /-- The least number of digits of an exponent. -/
  exponentWidth : Nat

/-- From a ten-thousandth up to `10 ^ 16` numbers are written out, with at least one digit after the
point; beyond, the exponent has a sign and at least two digits. -/
def style : Style := ⟨-4, 16, 2⟩

/-- The digits of `n`, with zeros in front to make up `width`. -/
def padded (width n : Nat) : String :=
  let digits := Nat.toDigits 10 n
  String.ofList (List.replicate (width - digits.length) '0' ++ digits)

/-- `d.ddde±xx`, the point dropped after a single digit. -/
def scientific (style : Style) (digits : List Char) (power : Int) : String :=
  let tail := digits.drop 1
  let fraction := if tail.isEmpty then [] else '.' :: tail
  String.ofList (digits.take 1 ++ fraction ++ ['e', if power < 0 then '-' else '+'])
    ++ padded style.exponentWidth power.natAbs

/-- Digits around a point. -/
def positional (digits : List Char) (power : Int) : String :=
  if power < 0 then
    String.ofList (['0', '.'] ++ List.replicate (power.natAbs - 1) '0' ++ digits)
  else
    let n := power.toNat + 1
    let whole := digits.take n ++ List.replicate (n - digits.length) '0'
    let fraction := if (digits.drop n).isEmpty then ['0'] else digits.drop n
    String.ofList (whole ++ ['.'] ++ fraction)

/-- A positive decimal whose digits are not all needed loses its trailing zeros. -/
def trimZeros (digits : List Char) : List Char :=
  (digits.reverse.dropWhile (· == '0')).reverse

/-- A flonum in the fewest digits that read back. -/
def flonumText (style : Style) : Flonum → String
  | .infinite negative => if negative then "-inf" else "inf"
  | .finite negative m e =>
    let sign := if negative then "-" else ""
    if m = 0 then sign ++ "0.0"
    else
      let d := Flonum.shortest m e
      let digits := Nat.toDigits 10 d.digits
      let power := d.exponent + digits.length - 1
      let digits := trimZeros digits
      sign ++ if style.leastPositional ≤ power && power < style.leastScientific then
          positional digits power
        else scientific style digits power

/-- A number as source text and messages show it. -/
def text : Number → String
  | .exact n => toString n
  | .inexact x => flonumText style x

end Number

/-! ## Number words -/

/-- A number word taken apart. -/
structure Numeral where
  negative : Bool
  whole : List Char
  /-- The digits after the point, `none` when there is no point. -/
  fraction : Option (List Char)
  /-- The sign and the digits of the power of ten. -/
  exponent : Option (Bool × List Char)
  deriving DecidableEq, Repr, Inhabited

namespace Numeral

open Text

/-- More digits than this do not make an exact number. -/
def exactLimit : Nat := 4300

/-- Takes a sign off a word. -/
def signed : List Char → Bool × List Char
  | '-' :: cs => (true, cs)
  | '+' :: cs => (false, cs)
  | cs => (false, cs)

/-- What may follow the digits: nothing, or a power of ten with at least one digit. -/
def readExponent? : List Char → Option (Option (Bool × List Char))
  | [] => some none
  | c :: cs =>
    if c == 'e' || c == 'E' then
      let (negative, digits) := signed cs
      if !digits.isEmpty && digits.all isDigit then some (some (negative, digits)) else none
    else none

/-- Takes a whole word apart, if it is a number word. -/
def read? (word : List Char) : Option Numeral :=
  let (negative, cs) := signed word
  let whole := cs.takeWhile isDigit
  match cs.dropWhile isDigit with
  | '.' :: rest =>
    let fraction := rest.takeWhile isDigit
    if whole.isEmpty && fraction.isEmpty then none
    else (readExponent? (rest.dropWhile isDigit)).map fun e ↦ ⟨negative, whole, some fraction, e⟩
  | rest =>
    if whole.isEmpty then none
    else (readExponent? rest).map fun e ↦ ⟨negative, whole, none, e⟩

/-- The power of ten that the word names. -/
def power (n : Numeral) : Int :=
  match n.exponent with
  | none => 0
  | some (negative, digits) => if negative then -(digitsValue digits : Int) else digitsValue digits

/-- The number that the word stands for. -/
def value (n : Numeral) : Number :=
  if n.fraction.isNone && n.exponent.isNone && n.whole.length ≤ exactLimit then
    let magnitude : Int := digitsValue n.whole
    .exact (if n.negative then -magnitude else magnitude)
  else
    let fraction := n.fraction.getD []
    .inexact (Flonum.ofDecimal n.negative (digitsValue (n.whole ++ fraction))
      (n.power - fraction.length))

end Numeral

end SchemeTyping
