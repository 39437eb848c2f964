import PlainLedger.Number.Decimal

/-!
# Arithmetic of decimals

The result of an operation is exact where there is room for it, and otherwise rounded; there is no
result if its whole part has no room. Zero as a result has no sign, unless it is what rounding left
of a product.
-/

namespace PlainLedger.Decimal

/-- The value of a decimal times ten to the power of `scale`, which is at least its own. -/
def scaled (d : Decimal) (scale : Nat) : Int :=
  let n : Int := (d.mantissa * Nat.pow 10 (scale - d.scale) : Nat)
  if d.negative then -n else n

/-- A sum of decimals other than zero. -/
def sum? (a b : Decimal) : Option Decimal :=
  let scale := max a.scale b.scale
  let n := a.scaled scale + b.scaled scale
  (fit? n.natAbs scale).bind fun (m, scale) ↦ ofParts? (decide (n < 0) && m != 0) m scale

def add? (a b : Decimal) : Option Decimal :=
  if a.isZero then some b else if b.isZero then some a else sum? a b

def sub? (a b : Decimal) : Option Decimal :=
  if a.isZero then some (if b.isZero then b else b.neg)
  else if b.isZero then some a
  else sum? a b.neg

/-- A mantissa that fills one word of 32 bits at most. -/
def isShort (d : Decimal) : Bool := d.mantissa < 0x100000000

/-- A product of short mantissas with more than 47 decimals is taken for zero. A product that is
rounded to zero keeps its sign, unless both mantissas are short. -/
def mul? (a b : Decimal) : Option Decimal :=
  let short := a.isShort && b.isShort
  let scale := a.scale + b.scale
  if a.isZero || b.isZero || (short && decide (47 < scale)) then some zero
  else
    (fit? (a.mantissa * b.mantissa) scale).bind fun (m, scale) ↦
      ofParts? ((a.negative != b.negative) && (m != 0 || !short)) m scale

/-- A quotient in the making: what has been found of it, its scale, and what is left over. -/
structure Partial where
  quotient : Nat
  scale : Int
  rest : Nat
  deriving DecidableEq, Repr

/-- The most decimals, up to nine, by which a quotient can be extended. -/
def room (p : Partial) : Nat :=
  if p.scale = maxScale then 0
  else
    let most := (min 9 (maxScale - p.scale)).toNat
    ((List.range (most + 1)).reverse.find? fun k ↦
      decide (p.quotient * Nat.pow 10 k < limit)).getD 0

/-- What extending a quotient comes to. -/
inductive Extension where
  | more (p : Partial)
  | done (quotient scale : Nat)
  | overflow
  deriving DecidableEq, Repr

/-- Drops the last decimal, a half to the even neighbour, where `rest` says whether anything was
left over. -/
def dropLast (q : Nat) (scale : Int) (rest : Nat) : Extension :=
  if scale - 1 < 0 then .overflow
  else
    let up := 5 < q % 10 ∨ (q % 10 = 5 ∧ (rest ≠ 0 ∨ q / 10 % 2 = 1))
    .done (if up then q / 10 + 1 else q / 10) (scale - 1).toNat

/-- Finds `k` further decimals of a quotient by `d`. -/
def extend (d k : Nat) (p : Partial) : Extension :=
  let q := p.quotient * Nat.pow 10 k
  if limit ≤ q then .overflow
  else
    let r := p.rest * Nat.pow 10 k
    let q := q + r / d
    let scale := p.scale + k
    if limit ≤ q then dropLast q scale (r % d) else .more ⟨q, scale, r % d⟩

/-- Rounds a quotient that has no room for another decimal. -/
def roundOff (d : Nat) (p : Partial) : Extension :=
  let q :=
    if d < 2 * p.rest ∨ (2 * p.rest = d ∧ p.quotient % 2 = 1) then p.quotient + 1 else p.quotient
  if q < limit then .done q p.scale.toNat
  else
    match fit? q p.scale.toNat with
    | some (m, scale) => .done m scale
    | none => .overflow

def divStep (d : Nat) (p : Partial) : Extension :=
  if p.rest = 0 then
    if 0 ≤ p.scale then .done p.quotient p.scale.toNat
    else extend d (min 9 (-p.scale).toNat) p
  else
    let k := room p
    if k < 9 ∧ p.scale < maxScale ∧ p.scale + k < 0 then .overflow
    else if k = 0 then roundOff d p
    else extend d k p

/-- Takes steps until the quotient is found; each but the last adds a decimal, and there are at
most `2 * maxScale` to add. -/
def divSteps (d : Nat) : Nat → Partial → Option (Nat × Nat)
  | 0, _ => none
  | budget + 1, p =>
    match divStep d p with
    | .more p => divSteps d budget p
    | .done q scale => some (q, scale)
    | .overflow => none

/-- Strips `k` zeros at the end of the decimals, if there are as many. -/
def stripSome (k : Nat) (x : Nat × Nat) : Nat × Nat :=
  if k ≤ x.2 ∧ x.1 % Nat.pow 10 k = 0 then (x.1 / Nat.pow 10 k, x.2 - k) else x

/-- Strips zeros in groups of eight, as long as the lowest 32 bits are zero. -/
def stripEights : Nat → Nat × Nat → Nat × Nat
  | 0, x => x
  | budget + 1, x =>
    if x.1 % 0x100000000 = 0 ∧ 8 ≤ x.2 ∧ x.1 % Nat.pow 10 8 = 0 then
      stripEights budget (x.1 / Nat.pow 10 8, x.2 - 8)
    else x

/-- Most of the zeros that a quotient was extended by are taken off again. -/
def stripQuotient (x : Nat × Nat) : Nat × Nat :=
  stripSome 1 (stripSome 2 (stripSome 4 (stripEights maxScale x)))

/-- The quotient by a divisor other than zero. A quotient that comes out without a rest keeps the
difference of the scales where it can. -/
def div? (a b : Decimal) : Option Decimal :=
  if a.isZero then some zero
  else
    let p : Partial :=
      ⟨a.mantissa / b.mantissa, (a.scale : Int) - b.scale, a.mantissa % b.mantissa⟩
    let strip := decide (p.rest ≠ 0)
    (divSteps b.mantissa (2 * maxScale + 2) p).bind fun x ↦
      let (m, scale) := if strip then stripQuotient x else x
      ofParts? ((a.negative != b.negative) && m != 0) m scale

end PlainLedger.Decimal
