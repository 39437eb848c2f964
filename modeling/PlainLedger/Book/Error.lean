/-!
# Reasons to refuse

What makes an object of a ledger impossible, with the wording of the message about it.
-/

namespace PlainLedger

/-- The objects that other objects are made of. -/
inductive NodeKind where
  | number
  | amount
  | compound
  | cost
  | position
  | keyValue
  | posting
  | entry
  deriving DecidableEq, Repr

def NodeKind.name : NodeKind → String
  | number => "number"
  | amount => "amount"
  | compound => "compound amount"
  | cost => "cost specification"
  | position => "position"
  | keyValue => "key/value pair"
  | posting => "posting"
  | entry => "entry"

/-- The clauses that a lot specification may have once. -/
inductive LotClause where
  | cost
  | date
  | label
  | merge
  deriving DecidableEq, Repr

def LotClause.name : LotClause → String
  | cost => "cost"
  | date => "date"
  | label => "label"
  | merge => "merge marker"

inductive Calculation where
  | addition
  | subtraction
  | multiplication
  | division
  deriving DecidableEq, Repr

def Calculation.name : Calculation → String
  | addition => "addition"
  | subtraction => "subtraction"
  | multiplication => "multiplication"
  | division => "division"

inductive BookError where
  | invalidNumber (text : String)
  | invalidDate (text : String)
  | divisionByZero
  | overflow (calculation : Calculation)
  | tooManyStrings (count : Nat)
  | absentTag (tag : String)
  | unbalancedTag (tag : String)
  | duplicateClause (clause : LotClause)
  | totalPriceWithoutUnits
  | totalPriceWithZeroUnits
  | invalidBooking (text : String)
  | unexpectedNode (expected found : NodeKind)
  deriving DecidableEq, Repr

namespace BookError

def message : BookError → String
  | invalidNumber text => s!"invalid number '{text}'"
  | invalidDate text => s!"invalid date '{text}'"
  | divisionByZero => "division by zero"
  | overflow calculation => s!"numeric overflow in {calculation.name}"
  | tooManyStrings count =>
    s!"too many strings on transaction description ({count}); expected at most 2"
  | absentTag tag => s!"attempting to pop absent tag: '{tag}'"
  | unbalancedTag tag => s!"unbalanced pushed tag: '{tag}'"
  | duplicateClause clause => s!"duplicate {clause.name} in lot specification"
  | totalPriceWithoutUnits => "total price on a posting without units"
  | totalPriceWithZeroUnits => "total price on a posting with zero units"
  | invalidBooking text => s!"invalid booking method '{text}'"
  | unexpectedNode expected found => s!"expected {expected.name}, found {found.name}"

/-- What is there, or else why it is not. -/
def ifMissing {α : Type} (e : BookError) : Option α → Except BookError α
  | some a => .ok a
  | none => .error e

@[simp] theorem ifMissing_some {α : Type} (e : BookError) (a : α) :
    e.ifMissing (some a) = .ok a := rfl

@[simp] theorem ifMissing_none {α : Type} (e : BookError) :
    e.ifMissing (none : Option α) = .error e := rfl

end BookError

end PlainLedger
