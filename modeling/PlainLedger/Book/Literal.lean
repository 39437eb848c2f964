import PlainLedger.Book.Error
import PlainLedger.Book.Ledger
import PlainLedger.Language.Interpretation
import PlainLedger.Number.Arithmetic
import PlainLedger.Number.Literal

/-!
# Literals and calculations of a ledger

Numbers and dates as they are written in a ledger, and what calculations with numbers come to. A
refused literal is named in the message as it was written.
-/

namespace PlainLedger

open PlainLedger.Language

def Decimal.read (text : String) : Except BookError Decimal :=
  (BookError.invalidNumber text).ifMissing (Decimal.ofLiteral? text)

def Date.read (text : String) : Except BookError Date :=
  (BookError.invalidDate text).ifMissing (Date.ofLiteral? text)

def BookingMethod.read (text : String) : Except BookError BookingMethod :=
  (BookError.invalidBooking text).ifMissing (BookingMethod.ofName? text)

def Decimal.calculate (op : Operator) (lhs rhs : Decimal) : Except BookError Decimal :=
  match op with
  | .add => (BookError.overflow .addition).ifMissing (lhs.add? rhs)
  | .subtract => (BookError.overflow .subtraction).ifMissing (lhs.sub? rhs)
  | .multiply => (BookError.overflow .multiplication).ifMissing (lhs.mul? rhs)
  | .divide =>
    if rhs.isZero then .error .divisionByZero
    else (BookError.overflow .division).ifMissing (lhs.div? rhs)

end PlainLedger
