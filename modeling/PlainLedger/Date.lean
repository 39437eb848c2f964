import PlainLedger.Text.Digits

/-!
# Dates

Days of the Gregorian calendar, carried on without end in both directions and with a year zero, in
years of up to four digits.
-/

namespace PlainLedger

def isLeapYear (year : Int) : Bool := year % 4 == 0 && (year % 100 != 0 || year % 400 == 0)

def daysInMonth (year : Int) (month : Nat) : Nat :=
  if month = 2 then if isLeapYear year then 29 else 28
  else if month = 4 ∨ month = 6 ∨ month = 9 ∨ month = 11 then 30
  else 31

/-- The parts are those of a day of the calendar. -/
def IsDate (year : Int) (month day : Nat) : Prop :=
  (-9999 ≤ year ∧ year ≤ 9999) ∧ (1 ≤ month ∧ month ≤ 12) ∧ 1 ≤ day ∧ day ≤ daysInMonth year month

instance (year : Int) (month day : Nat) : Decidable (IsDate year month day) :=
  inferInstanceAs (Decidable (_ ∧ _))

structure Date where
  year : Int
  month : Nat
  day : Nat
  isDate : IsDate year month day
  deriving DecidableEq, Repr

namespace Date

def ofParts? (year : Int) (month day : Nat) : Option Date :=
  if h : IsDate year month day then some ⟨year, month, day, h⟩ else none

/-- Year, month and day with two hyphens between them. -/
def toChars (d : Date) : List Char :=
  (if d.year < 0 then ['-'] else []) ++ Text.padded 4 d.year.natAbs ++ '-' ::
    Text.padded 2 d.month ++ '-' :: Text.padded 2 d.day

def render (d : Date) : String := String.ofList d.toChars

/-- A year of four digits, a month of two and a day of two. -/
def ofDigits? (negative : Bool) (cs : List Char) : Option Date :=
  match cs with
  | [y₁, y₂, y₃, y₄, '-', m₁, m₂, '-', d₁, d₂] =>
    if [y₁, y₂, y₃, y₄, m₁, m₂, d₁, d₂].all Char.isDigit then
      let year : Int := Text.ofDigits [y₁, y₂, y₃, y₄]
      ofParts? (if negative then -year else year) (Text.ofDigits [m₁, m₂])
        (Text.ofDigits [d₁, d₂])
    else none
  | _ => none

/-- The year may have a sign. -/
def ofChars? : List Char → Option Date
  | '-' :: rest => ofDigits? true rest
  | '+' :: rest => ofDigits? false rest
  | cs => ofDigits? false cs

def ofText? (s : String) : Option Date := ofChars? s.toList

/-- A date of a ledger, in which a slash may stand for a hyphen. -/
def ofLiteral? (s : String) : Option Date :=
  ofChars? (s.toList.map fun c ↦ if c = '/' then '-' else c)

end Date

end PlainLedger
