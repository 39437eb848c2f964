import PlainLedger.Number.Decimal

/-!
# Number literals

A literal is an optional sign, digits with at most one point among them, and possibly an exponent.
After the first digit, underscores are passed over. A digit that there is no room for rounds the
digits before it, a half up, if it stands after the point; the digits after it do not count. In
the place of that digit, an underscore counts as a zero if the digits before it are few. Decimals
that an exponent leaves no room for are rounded off, a half up, too.
-/

namespace PlainLedger.Decimal

def digit (c : Char) : Nat := c.toNat - '0'.toNat

/-- Rounds a mantissa by the digit after it. -/
def roundLast? (m scale d : Nat) : Option (Nat × Nat) :=
  if d < 5 then some (m, scale)
  else if m + 1 < limit then some (m + 1, scale)
  else if scale = 0 then none
  else some ((m + 1 + 4) / 10, scale - 1)

/-- Mantissas below the limit can take a digit within a word of 64 bits, with some to spare. -/
def shortLimit : Nat := (Nat.pow 2 64 - 1) / 10 - 255

/-- An underscore after the last decimal that there is room for stands in the place of the digit
that rounds, if the digits but the last are few. -/
def endsDecimals (m scale : Nat) : Bool := scale = maxScale && m / 10 < shortLimit

/-- Nothing but digits and underscores. -/
def isTail (cs : List Char) : Bool := cs.all fun c ↦ c.isDigit || c == '_'

/-- The digits after the point, with `m` and `scale` read so far; `seen` says whether there has
been a digit. -/
def readFraction (m scale : Nat) (seen : Bool) : List Char → Option (Nat × Nat)
  | [] => if seen then some (m, scale) else none
  | c :: rest =>
    if c.isDigit then
      let next := m * 10 + digit c
      if scale < maxScale ∧ next < limit then readFraction next (scale + 1) true rest
      else if isTail rest then roundLast? m scale (digit c)
      else none
    else if c = '_' ∧ seen then
      if endsDecimals m scale then if isTail rest then some (m, scale) else none
      else readFraction m scale seen rest
    else none

/-- The digits before the point. -/
def readWhole (m : Nat) (seen : Bool) : List Char → Option (Nat × Nat)
  | [] => if seen then some (m, 0) else none
  | c :: rest =>
    if c.isDigit then
      let next := m * 10 + digit c
      if next < limit then readWhole next true rest else none
    else if c = '.' then readFraction m 0 seen rest
    else if c = '_' ∧ seen then readWhole m seen rest
    else none

/-- A sign, and what follows it. -/
def readSign : List Char → Bool × List Char
  | '-' :: rest => (true, rest)
  | '+' :: rest => (false, rest)
  | cs => (false, cs)

/-- A literal without exponent. Zero has no sign. -/
def ofPlain? (cs : List Char) : Option Decimal :=
  let (negative, digits) := readSign cs
  (readWhole 0 false digits).bind fun (m, scale) ↦ ofParts? (negative && m != 0) m scale

/-- A natural number, possibly with a plus sign. -/
def readCount? (cs : List Char) : Option Nat :=
  let ds := match cs with
    | '+' :: rest => rest
    | _ => cs
  if ds.isEmpty || !ds.all Char.isDigit then none else some (Text.ofDigits ds)

/-- Without zeros at the end of the decimals. -/
def stripZeros : Nat → Nat → Nat × Nat
  | m, 0 => (m, 0)
  | m, scale + 1 => if m % 10 = 0 then stripZeros (m / 10) scale else (m, scale + 1)

/-- The number with the point moved to the left. -/
def shiftLeft? (d : Decimal) (n : Nat) : Option Decimal :=
  if n ≤ maxScale then
    let scale := min (d.scale + n) maxScale
    ofParts? d.negative (roundHalfUp d.mantissa (Nat.pow 10 (d.scale + n - scale))) scale
  else none

/-- The number with the point moved to the right. -/
def shiftRight? (d : Decimal) (n : Nat) : Option Decimal :=
  if n ≤ d.scale then ofParts? d.negative d.mantissa (d.scale - n)
  else if n ≤ maxScale then
    (fit? (d.mantissa * Nat.pow 10 n) d.scale).bind fun (m, scale) ↦
      let (m, scale) := stripZeros m scale
      ofParts? (d.negative && m != 0) m scale
  else none

def isExponentMark (c : Char) : Bool := c == 'e' || c == 'E'

/-- A literal with an exponent. -/
def ofScientific? (cs : List Char) : Option Decimal := do
  let base ← ofPlain? (cs.takeWhile fun c ↦ !isExponentMark c)
  match cs.dropWhile fun c ↦ !isExponentMark c with
  | _ :: '-' :: rest => base.shiftLeft? (← readCount? rest)
  | _ :: rest => base.shiftRight? (← readCount? rest)
  | [] => none

def ofChars? (cs : List Char) : Option Decimal := (ofPlain? cs).or (ofScientific? cs)

def ofText? (s : String) : Option Decimal := ofChars? s.toList

/-- The literal of a ledger, in which commas may group digits. -/
def ofLiteral? (s : String) : Option Decimal := ofChars? (s.toList.filter (· != ','))

end PlainLedger.Decimal
