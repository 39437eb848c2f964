import PlainLedger.Book.Lines
import PlainLedger.Book.Lot
import PlainLedger.Language.Interpretation

/-!
# Making nodes

What each construction of the language makes of the nodes it is given. A construction looks at its
parts in a fixed order, and the first that does not fit is the one that is named.
-/

namespace PlainLedger

open PlainLedger.Language

/-- A transaction has a narration, and before it maybe a payee. -/
def description : List String → Except BookError (Option String × String)
  | [] => .ok (none, "")
  | [narration] => .ok (none, narration)
  | [payee, narration] => .ok (some payee, narration)
  | strings => .error (.tooManyStrings strings.length)

/-- The price of one unit, from that of all units of a position. -/
def unitPrice (position? : Option Position) (price : Amount) : Except BookError Amount := do
  let position ← BookError.totalPriceWithoutUnits.ifMissing position?
  let units := position.units.number.abs
  if units.isZero then throw .totalPriceWithZeroUnits
  let number ← price.number.calculate .divide units
  return { price with number }

def MetaEntry.ofValue : MetaValue Node → Except BookError MetaEntry
  | .string s => .ok (.string s)
  | .account s => .ok (.account s)
  | .date s => (Date.read s).map .date
  | .currency s => .ok (.currency s)
  | .tag s => .ok (.tag s)
  | .bool b => .ok (.bool b)
  | .number n => n.toNumber.map .number
  | .amount n => n.toAmount.map .amount
  | .empty => .ok .null

def Metadata.ofNodes (origin : Provenance) (nodes : List Node) : Except BookError Metadata := do
  let values ← nodes.mapM Node.toKeyValue
  return (Metadata.ofOrigin origin).putAll values

def Posting.ofParts (origin : Provenance) (parts : PostingParts Node) :
    Except BookError Posting := do
  let position? ← parts.position?.mapM Node.toPosition
  let price? ← parts.price?.mapM Node.toAmount
  let price? ← if parts.totalPrice then price?.mapM (unitPrice position?) else pure price?
  return { account := parts.account, position?, price?, flag? := parts.flag?,
           metadata := .ofOrigin origin }

def Directive.ofStatement : Statement Node → Except BookError Directive
  | .openAccount account currencies booking? => do
    let booking? ← booking?.mapM BookingMethod.read
    return .openAccount account currencies booking?
  | .closeAccount account => .ok (.closeAccount account)
  | .commodity currency => .ok (.commodity currency)
  | .pad account source => .ok (.pad account source)
  | .balance account amount tolerance? => do
    let amount ← amount.toAmount
    let tolerance? ← tolerance?.mapM Node.toNumber
    return .balance account amount tolerance?
  | .price currency amount => do
    let amount ← amount.toAmount
    return .price currency amount
  | .event topic description => .ok (.event topic description)
  | .note account comment => .ok (.note account comment)
  | .document account filename => .ok (.document account filename)

namespace Entry

/-- The tags of a transaction are its own and the `active` ones. -/
def ofTransaction (active : TextSet) (origin : Provenance) (date : String) (flag : Char)
    (fields : TxnFields) (lines : List (TxnLine Node)) : Except BookError Entry := do
  let (payee?, narration) ← description fields.strings
  let (metadata, postings) ← lines.foldlM TxnItem.attachLine (Metadata.ofOrigin origin, [])
  let date ← Date.read date
  let transaction : Transaction :=
    { flag, payee?, narration, tags := (TextSet.ofList fields.tags).union active,
      links := .ofList fields.links, postings }
  return { date, metadata, directive := .transaction transaction }

def ofStatement (origin : Provenance) (date : String) (body : Statement Node)
    (details? : Option (List Node)) : Except BookError Entry := do
  let directive ← Directive.ofStatement body
  let date ← Date.read date
  let metadata ← Metadata.ofNodes origin (details?.getD [])
  return { date, metadata, directive }

end Entry

/-- The node asked for, while the tags `active` are pushed. -/
def Node.build (active : TextSet) : Construction Node → Except BookError Node
  | .number text => (Decimal.read text).map .number
  | .binary op lhs rhs => do
    let lhs ← lhs.toNumber
    let rhs ← rhs.toNumber
    let result ← lhs.calculate op rhs
    return .number result
  | .negate value => value.toNumber.map fun d ↦ .number d.neg
  | .amount n currency => n.toNumber.map fun d ↦ .amount ⟨d, currency⟩
  | .compoundAmount perUnit? total? currency => do
    let perUnit? ← perUnit?.mapM toNumber
    let total? ← total?.mapM toNumber
    return .compound ⟨perUnit?, total?, currency⟩
  | .lotSpec components => (CostSpec.ofComponents components).map .cost
  | .position _ units lot? => do
    let units ← units.toAmount
    let cost? ← lot?.mapM toCost
    return .position ⟨units, cost?⟩
  | .keyValue key value => (MetaEntry.ofValue value).map (.keyValue key)
  | .posting origin parts => (Posting.ofParts origin parts).map .posting
  | .transaction origin date flag fields lines =>
    (Entry.ofTransaction active origin date flag fields lines).map .entry
  | .statement origin date body details? =>
    (Entry.ofStatement origin date body details?).map .entry

end PlainLedger
