import PlainLedger.Book.Error
import PlainLedger.Book.Ledger

/-!
# Nodes

The objects that a ledger is put together from, each of one kind. What asks for an object of one
kind refuses those of all others.
-/

namespace PlainLedger

/-- The cost of one unit and the cost of all units together, as written in a lot. -/
structure Compound where
  perUnit? : Option Decimal
  total? : Option Decimal
  currency : String
  deriving DecidableEq, Repr

inductive Node where
  | number (d : Decimal)
  | amount (a : Amount)
  | compound (c : Compound)
  | cost (c : CostSpec)
  | position (p : Position)
  | keyValue (key : String) (value : MetaEntry)
  | posting (p : Posting)
  | entry (e : Entry)
  deriving DecidableEq, Repr

namespace Node

def kind : Node → NodeKind
  | number _ => .number
  | amount _ => .amount
  | compound _ => .compound
  | cost _ => .cost
  | position _ => .position
  | keyValue .. => .keyValue
  | posting _ => .posting
  | entry _ => .entry

def refuse {α : Type} (n : Node) (expected : NodeKind) : Except BookError α :=
  .error (.unexpectedNode expected n.kind)

def toNumber : Node → Except BookError Decimal
  | number d => .ok d
  | n => n.refuse .number

def toAmount : Node → Except BookError Amount
  | amount a => .ok a
  | n => n.refuse .amount

def toCompound : Node → Except BookError Compound
  | compound c => .ok c
  | n => n.refuse .compound

def toCost : Node → Except BookError CostSpec
  | cost c => .ok c
  | n => n.refuse .cost

def toPosition : Node → Except BookError Position
  | position p => .ok p
  | n => n.refuse .position

def toKeyValue : Node → Except BookError (String × MetaEntry)
  | keyValue key value => .ok (key, value)
  | n => n.refuse .keyValue

def toPosting : Node → Except BookError Posting
  | posting p => .ok p
  | n => n.refuse .posting

def toEntry : Node → Except BookError Entry
  | entry e => .ok e
  | n => n.refuse .entry

end Node

end PlainLedger
