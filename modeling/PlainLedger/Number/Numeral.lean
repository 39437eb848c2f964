import PlainLedger.Number.Double

/-!
# Numerals

A number as it is written, with a point or an exponent or with more digits than an integer may
have. It is held to double precision, and not always as the nearest number: the digits that fit a
word of 64 bits are read as an integer, the others are left out, and the power of ten that belongs
to them comes in with a rounding of its own.
-/

namespace PlainLedger

structure Numeral where
  negative : Bool
  /-- The digits before the point. -/
  whole : List Char
  /-- The digits after the point. -/
  fraction : List Char
  exponent : Int
  deriving DecidableEq, Repr

namespace Numeral

def ofInt (n : Int) : Numeral := ⟨decide (n < 0), Nat.toDigits 10 n.natAbs, [], 0⟩

/-- Words lie below the limit. -/
def wordLimit : Nat := Nat.pow 2 64

/-- Takes digits before the point, after those of `m`, up to the first that does not fit. Gives
the number of digits left out. -/
def takeWhole (m : Nat) : List Char → Nat × Nat
  | [] => (m, 0)
  | c :: rest =>
    let next := m * 10 + Decimal.digit c
    if next < wordLimit then takeWhole next rest else (m, rest.length + 1)

/-- Takes digits after the point, after those of `m`, up to the first that does not fit. Gives the
number of digits taken. -/
def takeFraction (m : Nat) : List Char → Nat × Nat
  | [] => (m, 0)
  | c :: rest =>
    let next := m * 10 + Decimal.digit c
    if next < wordLimit then
      let (m, taken) := takeFraction next rest
      (m, taken + 1)
    else (m, 0)

/-- The digits that are read, and the power of ten that they are to be multiplied by. -/
def significand (x : Numeral) : Nat × Int :=
  let (m, dropped) := takeWhole 0 x.whole
  let (m, taken) := takeFraction m x.fraction
  (m, x.exponent + dropped - taken)

/-- The number without its sign. -/
def toDouble? (x : Numeral) : Option Double :=
  let (m, e) := x.significand
  (Double.ofNat m).timesTens? e

end Numeral

namespace Decimal

/-- The decimal number that a numeral stands for. Zero has no sign. -/
def ofNumeral? (x : Numeral) : Option Decimal :=
  (x.toDouble?.bind ofDouble?).map fun d ↦ if x.negative && !d.isZero then d.neg else d

end Decimal

end PlainLedger
