import PlainLedger.Text.Digits

/-!
# Decimal numbers

A decimal is a sign, a mantissa of 96 bits and a scale of up to 28 decimals. Numbers of the same
value may differ in scale, and a zero may have a sign. What needs more room is rounded to the
nearest number that has few enough decimals, a half to the even neighbour.
-/

namespace PlainLedger

structure Decimal where
  negative : Bool
  mantissa : Nat
  scale : Nat
  mantissa_lt : mantissa < Nat.pow 2 96
  scale_le : scale ≤ 28
  deriving DecidableEq, Repr

namespace Decimal

/-- Mantissas lie below the limit. -/
def limit : Nat := Nat.pow 2 96

def maxScale : Nat := 28

def zero : Decimal := ⟨false, 0, 0, by decide, by decide⟩

instance : Inhabited Decimal := ⟨zero⟩

/-- The number with the given parts, if they are not too large. -/
def ofParts? (negative : Bool) (mantissa scale : Nat) : Option Decimal :=
  if h : mantissa < Nat.pow 2 96 ∧ scale ≤ 28 then some ⟨negative, mantissa, scale, h.1, h.2⟩
  else none

def isZero (d : Decimal) : Bool := d.mantissa == 0

/-- The other sign, for zero too. -/
def neg (d : Decimal) : Decimal := { d with negative := !d.negative }

def abs (d : Decimal) : Decimal := { d with negative := false }

/-- The quotient rounded to the nearest natural number, a half to the even one. -/
def roundHalfEven (n d : Nat) : Nat :=
  let q := n / d
  let r := n % d
  if d < 2 * r ∨ (2 * r = d ∧ q % 2 = 1) then q + 1 else q

/-- The quotient rounded to the nearest natural number, a half up. -/
def roundHalfUp (n d : Nat) : Nat := (2 * n + d) / (2 * d)

/-- A mantissa and a scale of any size, without as many decimals as it takes to find room. -/
def fit? (mantissa scale : Nat) : Option (Nat × Nat) :=
  let fewest := scale - maxScale
  ((List.range (scale + 1 - fewest)).map (· + fewest)).findSome? fun k ↦
    let m := roundHalfEven mantissa (Nat.pow 10 k)
    if m < limit then some (m, scale - k) else none

/-- The value, with as many decimals as the scale says. A sign is written for zero too. -/
def toChars (d : Decimal) : List Char :=
  let sign := if d.negative then ['-'] else []
  let whole := Nat.toDigits 10 (d.mantissa / Nat.pow 10 d.scale)
  let fraction :=
    if d.scale = 0 then [] else '.' :: Text.padded d.scale (d.mantissa % Nat.pow 10 d.scale)
  sign ++ whole ++ fraction

def render (d : Decimal) : String := String.ofList d.toChars

end Decimal

end PlainLedger
