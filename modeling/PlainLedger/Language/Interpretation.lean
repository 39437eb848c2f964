import PlainLedger.Context
import PlainLedger.Diagnostic
import PlainLedger.Language.Value

/-!
# Interpretations

What the language asks of whoever gives meaning to a ledger: to make objects from texts and from
objects made before, to take note of settings, and in the end to make a whole of the entries. An
object that goes into another is used up by it, whether or not the other can be made.
-/

namespace PlainLedger.Language

inductive Operator where
  | add
  | subtract
  | multiply
  | divide
  deriving DecidableEq, Repr

structure PostingParts (H : Type) where
  account : String
  /-- The units, with the lot they belong to. -/
  position? : Option H
  price? : Option H
  /-- The price is that of all units together. -/
  totalPrice : Bool
  flag? : Option Char
  /-- The flag of the transaction that the posting belongs to. -/
  txnFlag : Char
  deriving DecidableEq, Repr

/-- What a dated entry says, transactions apart. -/
inductive Statement (H : Type) where
  | openAccount (account : String) (currencies : List String) (booking? : Option String)
  | closeAccount (account : String)
  | commodity (currency : String)
  | pad (account source : String)
  | balance (account : String) (amount : H) (tolerance? : Option H)
  | price (currency : String) (amount : H)
  | event (topic description : String)
  | note (account comment : String)
  | document (account filename : String)
  deriving DecidableEq, Repr

/-- A request for an object. -/
inductive Construction (H : Type) where
  | number (text : String)
  | binary (op : Operator) (lhs rhs : H)
  | negate (value : H)
  | amount (number : H) (currency : String)
  /-- The cost of one unit and the cost of all units together, each of which may be left out. -/
  | compoundAmount (perUnit? total? : Option H) (currency : String)
  | lotSpec (components : List (LotComponent H))
  | position (origin : Provenance) (units : H) (lot? : Option H)
  | keyValue (key : String) (value : MetaValue H)
  | posting (origin : Provenance) (parts : PostingParts H)
  | transaction (origin : Provenance) (date : String) (flag : Char) (fields : TxnFields)
      (lines : List (TxnLine H))
  /-- A dated entry, with the metadata written under it if there is any. -/
  | statement (origin : Provenance) (date : String) (body : Statement H)
      (details? : Option (List H))
  deriving DecidableEq, Repr

/-- A setting that is no entry. -/
inductive Declaration where
  | option (origin : Provenance) (key value : String)
  | includeFile (origin : Provenance) (filename : String)
  | plugin (origin : Provenance) (name : String) (config? : Option String)
  | pushTag (tag : String)
  | popTag (tag : String)
  deriving DecidableEq, Repr

/-- `H` are the handles of objects, `ε` the reasons for a refusal, `σ` what is remembered and `ω`
the whole. -/
structure Interpretation (H ε σ ω : Type) where
  construct : Construction H → σ → Except ε H × σ
  declare : Declaration → σ → Except ε Unit × σ
  /-- Every message about the text is passed on, in order. -/
  report : Diagnostic → σ → σ
  /-- Takes back an object that is not going to be used. -/
  release : H → σ → σ
  finish : List H → σ → ω × σ
  message : ε → String

variable {H : Type}

namespace PostingParts

def handles (p : PostingParts H) : List H := p.position?.toList ++ p.price?.toList

end PostingParts

namespace Statement

def handles : Statement H → List H
  | balance _ amount tolerance? => amount :: tolerance?.toList
  | price _ amount => [amount]
  | _ => []

def name : Statement H → String
  | openAccount .. => "open"
  | closeAccount _ => "close"
  | commodity _ => "commodity"
  | pad .. => "pad"
  | balance .. => "balance"
  | price .. => "price"
  | event .. => "event"
  | note .. => "note"
  | document .. => "document"

end Statement

def Operator.name : Operator → String
  | add => "add"
  | subtract => "subtract"
  | multiply => "multiply"
  | divide => "divide"

namespace Construction

/-- The objects that are used up. -/
def handles : Construction H → List H
  | number _ => []
  | binary _ lhs rhs => [lhs, rhs]
  | negate value => [value]
  | amount n _ => [n]
  | compoundAmount perUnit? total? _ => perUnit?.toList ++ total?.toList
  | lotSpec components => components.flatMap LotComponent.handles
  | position _ units lot? => units :: lot?.toList
  | keyValue _ value => value.handles
  | posting _ parts => parts.handles
  | transaction _ _ _ _ lines => lines.flatMap TxnLine.handles
  | statement _ _ body details? => body.handles ++ details?.getD []

def name : Construction H → String
  | number _ => "number"
  | binary op _ _ => op.name
  | negate _ => "negate"
  | amount .. => "amount"
  | compoundAmount .. => "compound_amount"
  | lotSpec _ => "lot_spec"
  | position .. => "position"
  | keyValue .. => "key_value"
  | posting .. => "posting"
  | transaction .. => "transaction"
  | statement _ _ body _ => body.name

def origin? : Construction H → Option Provenance
  | position origin _ _ => some origin
  | posting origin _ => some origin
  | transaction origin _ _ _ _ => some origin
  | statement origin _ _ _ => some origin
  | _ => none

/-- The object goes into the ledger as an entry of its own. -/
def isEntry : Construction H → Bool
  | transaction .. => true
  | statement .. => true
  | _ => false

end Construction

namespace Declaration

def name : Declaration → String
  | option .. => "option"
  | includeFile .. => "include"
  | plugin .. => "plugin"
  | pushTag _ => "pushtag"
  | popTag _ => "poptag"

def origin? : Declaration → Option Provenance
  | option origin _ _ => some origin
  | includeFile origin _ => some origin
  | plugin origin _ _ => some origin
  | _ => none

end Declaration

end PlainLedger.Language
