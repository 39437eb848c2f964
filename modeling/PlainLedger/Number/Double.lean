import PlainLedger.Number.Literal

/-!
# Numbers of double precision

A number of 53 significant bits, with the operations that round to the nearest of them. Such a
number counts as the decimal number with the fewest digits that is held as the same number, of
these the nearest to it, and of two equally near ones the larger.
-/

namespace PlainLedger

/-- The number `mantissa * 2 ^ exponent`. -/
structure Double where
  mantissa : Nat
  exponent : Int
  deriving DecidableEq, Repr

namespace Double

/-- The exponent of the smallest number above zero. -/
def minExponent : Int := -1074

/-- The exponent of the largest numbers. -/
def maxExponent : Int := 971

def isFinite (x : Double) : Bool := x.exponent ≤ maxExponent

/-- The fraction `n * b ^ e`. -/
def power (n b : Nat) (e : Int) : Nat × Nat :=
  if 0 ≤ e then (n * Nat.pow b e.toNat, 1) else (n, Nat.pow b (-e).toNat)

/-- The fraction `x / b ^ e`. -/
def scaleDown (x : Nat × Nat) (b : Nat) (e : Int) : Nat × Nat :=
  if 0 ≤ e then (x.1, x.2 * Nat.pow b e.toNat) else (x.1 * Nat.pow b (-e).toNat, x.2)

/-- The exponent with which a fraction has a whole part of 53 bits. -/
def exponentFor (x : Nat × Nat) : Int :=
  let e := max minExponent ((Nat.log2 x.1 : Int) - Nat.log2 x.2 - 53)
  let y := scaleDown x 2 e
  if y.1 / y.2 < Nat.pow 2 53 then e else e + 1

/-- The number nearest to a fraction, a half to the even mantissa. -/
def nearest (x : Nat × Nat) : Double :=
  let e := exponentFor x
  let y := scaleDown x 2 e
  let m := Decimal.roundHalfEven y.1 y.2
  if m < Nat.pow 2 53 then ⟨m, e⟩ else ⟨m / 2, e + 1⟩

def ofNat (n : Nat) : Double := nearest (n, 1)

def mul (x y : Double) : Double :=
  nearest (power (x.mantissa * y.mantissa) 2 (x.exponent + y.exponent))

/-- The quotient by a number other than zero. -/
def div (x y : Double) : Double :=
  let z := power x.mantissa 2 (x.exponent - y.exponent)
  nearest (z.1, z.2 * y.mantissa)

/-- The largest power of ten among the numbers. -/
def maxTens : Nat := 308

/-- The product with a power of ten, as one product or one quotient of two numbers; what is too
large is none. A power too small to be a number is divided by in portions. -/
def timesTens? (x : Double) (e : Int) : Option Double :=
  if e.natAbs ≤ maxTens then
    let tens := ofNat (Nat.pow 10 e.natAbs)
    let y := if 0 ≤ e then x.mul tens else x.div tens
    if y.isFinite then some y else none
  else if x.mantissa = 0 then some x
  else if 0 ≤ e then none
  else timesTens? (x.div (ofNat (Nat.pow 10 maxTens))) (e + maxTens)
termination_by e.natAbs
decreasing_by
  simp only [maxTens] at *
  omega

/-- The multiple of a power of ten that is nearest to the number and is held as the same number,
if one of its two neighbours is. A half is rounded up. -/
def onGrid? (x : Double) (e : Int) : Option Nat :=
  let y := scaleDown (power x.mantissa 2 x.exponent) 10 e
  let below := y.1 / y.2
  [Decimal.roundHalfUp y.1 y.2, below, below + 1].find? fun n ↦
    decide (nearest (power n 10 e) = x)

/-- Powers of ten, the largest first, between which all digits lie that matter. -/
def grids : List Int := (List.range 660).map fun (k : Nat) ↦ 310 - (k : Int)

/-- The digits and the power of ten of the shortest decimal form. -/
def shortest (x : Double) : Nat × Int :=
  if x.mantissa = 0 then (0, 0)
  else (grids.findSome? fun e ↦ (x.onGrid? e).map fun n ↦ (n, e)).getD (0, 0)

/-- Digits with zeros or a point, and without an exponent. -/
def positional (n : Nat) (e : Int) : List Char :=
  if 0 ≤ e then Nat.toDigits 10 (n * Nat.pow 10 e.toNat)
  else
    let places := (-e).toNat
    Nat.toDigits 10 (n / Nat.pow 10 places) ++ '.' :: Text.padded places (n % Nat.pow 10 places)

end Double

namespace Decimal

def ofDouble? (x : Double) : Option Decimal :=
  let (n, e) := x.shortest
  ofChars? (Double.positional n e)

end Decimal

end PlainLedger
