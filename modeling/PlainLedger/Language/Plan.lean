import PlainLedger.Language.Interpretation
import PlainLedger.Language.Production

/-!
# Plans

What completing a rule calls for, as a function of the values of its right-hand side: a value made
from them, or one request to the interpretation. The values are taken from left to right, and each
has to have the shape that the rule expects; a value that a rule has no use for is set aside.
-/

namespace PlainLedger.Language

/-- Values that do not fit the rule that is given them. -/
inductive Misfit where
  | mismatch (expected found : String)
  | postingOutsideTransaction
  deriving DecidableEq, Repr

def Misfit.message (rule : Nat) : Misfit → String
  | mismatch expected found => s!"rule {rule}: expected {expected}, found {found}"
  | postingOutsideTransaction => "posting reduced outside a transaction"

inductive Plan (H : Type) where
  | keep (v : Value H)
  /-- A value, with a warning about the form it is written in. -/
  | warn (message : String) (v : Value H)
  /-- A new object is the value. -/
  | construct (c : Construction H)
  /-- A new object is the value, together with its tolerance. -/
  | measure (c : Construction H) (tolerance? : Option H)
  | declare (d : Declaration)
  deriving DecidableEq, Repr

def slashWarning : String := "Usage of slash as cost separator is deprecated (/)"

def pipeWarning : String := "Pipe symbol is deprecated"

variable {H : Type}

/-- The values of a right-hand side that have not been taken, and those set aside. -/
structure Args (H : Type) where
  pending : List (Value H)
  unused : List (Value H) := []
  deriving DecidableEq, Repr

abbrev Take (H : Type) := StateT (Args H) (Except Misfit)

namespace Take

def next : Take H (Value H) := fun a ↦
  match a.pending with
  | [] => .error (.mismatch "a value" "end of rule")
  | v :: rest => .ok (v, { a with pending := rest })

/-- Sets a value aside. -/
def skip : Take H Unit := do
  let v ← next
  modify fun a ↦ { a with unused := a.unused ++ [v] }

/-- Takes a value of one shape. -/
def shaped {β : Type} (expected : String) (pick : Value H → Option β) : Take H β := do
  let v ← next
  match pick v with
  | some b => return b
  | none => throw (.mismatch expected v.shape)

def text : Take H String := shaped "text" fun
  | .text s => some s
  | _ => none

def optionalText : Take H (Option String) := shaped "optional text" fun
  | .text s => some (some s)
  | .nothing => some none
  | _ => none

def char : Take H Char := shaped "char" fun
  | .char c => some c
  | _ => none

def optionalChar : Take H (Option Char) := shaped "optional char" fun
  | .char c => some (some c)
  | .nothing => some none
  | _ => none

def handle : Take H H := shaped "handle" fun
  | .handle h => some h
  | _ => none

def optionalHandle : Take H (Option H) := shaped "optional handle" fun
  | .handle h => some (some h)
  | .nothing => some none
  | _ => none

def pair : Take H (H × Option H) := shaped "pair" fun
  | .pair a t => some (a, t)
  | _ => none

def list : Take H (List H) := shaped "list" fun
  | .list hs => some hs
  | _ => none

/-- The metadata under an entry; an empty list is none. -/
def details : Take H (Option (List H)) := do
  let hs ← list
  return if hs.isEmpty then none else some hs

def lines : Take H (List (TxnLine H)) := shaped "lines" fun
  | .lines xs => some xs
  | _ => none

def strings : Take H (List String) := shaped "strings" fun
  | .strings xs => some xs
  | _ => none

def fields : Take H TxnFields := shaped "fields" fun
  | .fields f => some f
  | _ => none

def component : Take H (LotComponent H) := shaped "lot component" fun
  | .component x => some x
  | _ => none

def components : Take H (List (LotComponent H)) := shaped "lot components" fun
  | .components xs => some xs
  | _ => none

def metadata : Take H (MetaValue H) := shaped "metadata value" fun
  | .metadata m => some m
  | _ => none

/-- The rest of a binary operation. -/
def binary (op : Operator) : Take H (Plan H) := do
  let lhs ← handle
  skip
  let rhs ← handle
  return .construct (.binary op lhs rhs)

/-- The rest of a posting: its own flag, the account, and the parts that `parts` takes. -/
def posting (origin : Provenance) (txnFlag? : Option Char) (totalPrice : Bool)
    (parts : Take H (Option H × Option H)) : Take H (Plan H) := do
  let some txnFlag := txnFlag? | throw .postingOutsideTransaction
  skip
  let flag? ← optionalChar
  let account ← text
  let (position?, price?) ← parts
  return .construct (.posting origin { account, position?, price?, totalPrice, flag?, txnFlag })

/-- The rest of a posting with a price. -/
def priced : Take H (Option H × Option H) := do
  let position ← handle
  skip
  let price ← handle
  return (some position, some price)

/-- The parts of a dated entry: the date, the keyword, what `body` takes, the line end and the
metadata. -/
def dated (origin : Provenance) (body : Take H (Statement H)) : Take H (Plan H) := do
  let date ← text
  skip
  let body ← body
  skip
  let details? ← details
  return .construct (.statement origin date body details?)

end Take

open Take

/-- A text that means truth, in whatever case it is written. -/
def isTrue (s : String) : Bool := s.toList.map Char.toLower == "true".toList

/-- The plan of a production for a phrase that begins at `origin`. Under a posting, `txnFlag?` is
the flag of the transaction above it. -/
def Production.plan (origin : Provenance) (txnFlag? : Option Char) :
    Production → Take H (Plan H)
  | .file | .declarationsDirective | .declarationsError | .forward | .maybeNumberSome => do
    return .keep (← next)
  | .declarationsEmpty | .metaListEmpty => return .keep (.list [])
  | .declarationsEntry | .metaListAppend => do
    let hs ← list
    return .keep (.list (hs ++ [← handle]))
  | .discard | .optFlagNone | .bookingNone | .maybeNumberNone => return .keep .nothing
  | .txnKeyword | .txnAsterisk | .optFlagAsterisk => return .keep (.char '*')
  | .txnFlag | .optFlagFlag => do return .keep (.char (← char))
  | .number => do return .construct (.number (← text))
  | .add => binary .add
  | .subtract => binary .subtract
  | .multiply => binary .multiply
  | .divide => binary .divide
  | .negate => do
    skip
    return .construct (.negate (← handle))
  | .unaryPlus | .parens => do
    skip
    return .keep (← next)
  | .fieldsEmpty => return .keep (.fields {})
  | .fieldString => do
    let f ← fields
    return .keep (.fields { f with strings := f.strings ++ [← text] })
  | .fieldLink => do
    let f ← fields
    return .keep (.fields { f with links := f.links ++ [← text] })
  | .fieldTag => do
    let f ← fields
    return .keep (.fields { f with tags := f.tags ++ [← text] })
  | .fieldPipe => do return .warn pipeWarning (.fields (← fields))
  | .transaction => do
    let date ← text
    let flag ← char
    let fields ← fields
    skip
    let lines ← lines
    return .construct (.transaction origin date flag fields lines)
  | .postingBare => posting origin txnFlag? false (return (none, none))
  | .postingUnits => posting origin txnFlag? false do return (some (← handle), none)
  | .postingPerUnitPrice => posting origin txnFlag? false priced
  | .postingTotalPrice => posting origin txnFlag? true priced
  | .keyValue => do
    skip
    let key ← text
    let value ← metadata
    return .construct (.keyValue key value)
  | .metaString => do return .keep (.metadata (.string (← text)))
  | .metaAccount => do return .keep (.metadata (.account (← text)))
  | .metaDate => do return .keep (.metadata (.date (← text)))
  | .metaCurrency => do return .keep (.metadata (.currency (← text)))
  | .metaTag => do return .keep (.metadata (.tag (← text)))
  | .metaBool => do return .keep (.metadata (.bool (isTrue (← text))))
  | .metaNumber => do return .keep (.metadata (.number (← handle)))
  | .metaAmount => do return .keep (.metadata (.amount (← handle)))
  | .metaEmpty => return .keep (.metadata .empty)
  | .linesEmpty => return .keep (.lines [])
  | .linesKeyValue => do
    let xs ← lines
    return .keep (.lines (xs ++ [.detail (← handle)]))
  | .linesPosting => do
    let xs ← lines
    return .keep (.lines (xs ++ [.posting (← handle)]))
  | .currenciesEmpty => return .keep (.strings [])
  | .currenciesFirst => do return .keep (.strings [← text])
  | .currenciesAppend => do
    let xs ← strings
    skip
    return .keep (.strings (xs ++ [← text]))
  | .pushTag => do
    skip
    return .declare (.pushTag (← text))
  | .popTag => do
    skip
    return .declare (.popTag (← text))
  | .openEntry => dated origin do
    let account ← text
    let currencies ← strings
    let booking? ← optionalText
    return .openAccount account currencies booking?
  | .bookingSome | .filename => do return .keep (.text (← text))
  | .closeEntry => dated origin do return .closeAccount (← text)
  | .commodity => dated origin do return .commodity (← text)
  | .pad => dated origin do
    let account ← text
    let source ← text
    return .pad account source
  | .balance => dated origin do
    let account ← text
    let (a, tolerance?) ← pair
    return .balance account a tolerance?
  | .amount => do
    let number ← handle
    let currency ← text
    return .construct (.amount number currency)
  | .amountExact => do
    let number ← handle
    let currency ← text
    return .measure (.amount number currency) none
  | .amountWithTolerance => do
    let number ← handle
    skip
    let tolerance ← handle
    let currency ← text
    return .measure (.amount number currency) (some tolerance)
  | .compoundPerUnit => do
    let perUnit? ← optionalHandle
    let currency ← text
    return .construct (.compoundAmount perUnit? none currency)
  | .compoundWithTotal => do
    let perUnit? ← optionalHandle
    skip
    let total? ← optionalHandle
    let currency ← text
    return .construct (.compoundAmount perUnit? total? currency)
  | .position => do return .construct (.position origin (← handle) none)
  | .positionWithLot => do
    let units ← handle
    let lot ← handle
    return .construct (.position origin units (some lot))
  | .lotSpec => do
    skip
    return .construct (.lotSpec (← components))
  | .lotListEmpty => return .keep (.components [])
  | .lotListFirst => do return .keep (.components [← component])
  | .lotListComma => do
    let xs ← components
    skip
    return .keep (.components (xs ++ [← component]))
  | .lotListSlash => do
    let xs ← components
    skip
    return .warn slashWarning (.components (xs ++ [← component]))
  | .lotCost => do return .keep (.component (.cost (← handle)))
  | .lotDate => do return .keep (.component (.date (← text)))
  | .lotLabel => do return .keep (.component (.label (← text)))
  | .lotMerge => return .keep (.component .merge)
  | .price => dated origin do
    let currency ← text
    let amount ← handle
    return .price currency amount
  | .event => dated origin do
    let topic ← text
    let description ← text
    return .event topic description
  | .note => dated origin do
    let account ← text
    let comment ← text
    return .note account comment
  | .document => dated origin do
    let account ← text
    let filename ← text
    return .document account filename
  | .optionSetting => do
    skip
    let key ← text
    let value ← text
    return .declare (.option origin key value)
  | .includeFile => do
    skip
    return .declare (.includeFile origin (← text))
  | .plugin => do
    skip
    return .declare (.plugin origin (← text) none)
  | .pluginWithConfig => do
    skip
    let name ← text
    let config ← text
    return .declare (.plugin origin name (some config))

end PlainLedger.Language
