/-!
# Decimal digits
-/

namespace PlainLedger.Text

/-- The digits of a number, with zeros before them if there are fewer than `width`. -/
def padded (width n : Nat) : List Char :=
  let ds := Nat.toDigits 10 n
  List.replicate (width - ds.length) '0' ++ ds

/-- The number that digits write. -/
def ofDigits (cs : List Char) : Nat := Nat.ofDigitChars 10 cs 0

end PlainLedger.Text
