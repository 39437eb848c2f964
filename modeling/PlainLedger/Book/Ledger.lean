import PlainLedger.Date
import PlainLedger.Diagnostic
import PlainLedger.Number.Decimal
import PlainLedger.Text.Sorted

/-!
# Ledgers

What a text is read into: dated entries in the order of the text, the messages about it, and the
settings it makes.
-/

namespace PlainLedger

structure Amount where
  number : Decimal
  currency : String
  deriving DecidableEq, Repr

def Amount.render (a : Amount) : String := s!"{a.number.render} {a.currency}"

/-- What is known about the lot that units belong to. -/
structure CostSpec where
  perUnit? : Option Decimal := none
  total? : Option Decimal := none
  currency? : Option String := none
  date? : Option Date := none
  label? : Option String := none
  /-- The lots are merged into one. -/
  merge : Bool := false
  deriving DecidableEq, Repr

structure Position where
  units : Amount
  cost? : Option CostSpec
  deriving DecidableEq, Repr

/-- A value of metadata. -/
inductive MetaEntry where
  | string (s : String)
  | account (s : String)
  | date (d : Date)
  | currency (s : String)
  | tag (s : String)
  | bool (b : Bool)
  | number (d : Decimal)
  | amount (a : Amount)
  | null
  deriving DecidableEq, Repr

/-- Where an object was written, and the metadata written under it. -/
structure Metadata where
  filename : String
  line : Line
  values : TextMap MetaEntry := .empty
  deriving DecidableEq, Repr

/-- How lots are chosen when units leave an account. -/
inductive BookingMethod where
  | strict
  | none
  | average
  | fifo
  | lifo
  deriving DecidableEq, Repr

namespace BookingMethod

def all : List BookingMethod := [strict, none, average, fifo, lifo]

def name : BookingMethod → String
  | strict => "STRICT"
  | none => "NONE"
  | average => "AVERAGE"
  | fifo => "FIFO"
  | lifo => "LIFO"

def ofName? (s : String) : Option BookingMethod := all.find? fun m ↦ m.name == s

theorem ofName?_name (m : BookingMethod) : ofName? m.name = some m := by cases m <;> decide

end BookingMethod

structure Posting where
  account : String
  position? : Option Position
  /-- The price of one unit. -/
  price? : Option Amount
  flag? : Option Char
  metadata : Metadata
  deriving DecidableEq, Repr

structure Transaction where
  flag : Char
  payee? : Option String
  narration : String
  tags : TextSet
  links : TextSet
  postings : List Posting
  deriving DecidableEq, Repr

inductive Directive where
  | openAccount (account : String) (currencies : List String) (booking? : Option BookingMethod)
  | closeAccount (account : String)
  | commodity (currency : String)
  | pad (account source : String)
  | balance (account : String) (amount : Amount) (tolerance? : Option Decimal)
  | transaction (t : Transaction)
  | note (account comment : String)
  | event (topic description : String)
  | price (currency : String) (amount : Amount)
  | document (account filename : String)
  deriving DecidableEq, Repr

def Directive.name : Directive → String
  | openAccount .. => "open"
  | closeAccount _ => "close"
  | commodity _ => "commodity"
  | pad .. => "pad"
  | balance .. => "balance"
  | transaction _ => "transaction"
  | note .. => "note"
  | event .. => "event"
  | price .. => "price"
  | document .. => "document"

structure Entry where
  date : Date
  metadata : Metadata
  directive : Directive
  deriving DecidableEq, Repr

structure Plugin where
  name : String
  config? : Option String
  deriving DecidableEq, Repr

structure Ledger where
  entries : List Entry := []
  /-- The messages about the text, and then those about the whole. -/
  errors : List Diagnostic := []
  options : TextMap String := .empty
  /-- The values of an option before the present one, oldest first. -/
  optionHistory : TextMap (List String) := .empty
  includes : List String := []
  plugins : List Plugin := []
  deriving DecidableEq, Repr

namespace Ledger

def transactions (l : Ledger) : List Transaction :=
  l.entries.filterMap fun e ↦
    match e.directive with
    | .transaction t => some t
    | _ => none

end Ledger

end PlainLedger
