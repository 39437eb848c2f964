import PlainLedger.Json.Metadata

/-!
# JSON form of entries

An entry is one record: its date, its metadata, the word for its type and what belongs to that
type. It is always given by the names of its fields.
-/

namespace PlainLedger

namespace BookingMethod

def toJson (m : BookingMethod) : Json := .string m.name

def ofJson? (inEntry : Bool) (j : Json) : Option BookingMethod := (j.word? inEntry).bind ofName?

end BookingMethod

namespace Posting

variable (k : Json.Formats)

def toJson (p : Posting) : Json :=
  .object [("account", .string p.account),
    ("position", .ofOption (Position.toJson k) p.position?),
    ("price", .ofOption (Amount.toJson k) p.price?),
    ("flag", .ofOption (fun c ↦ .string c.toString) p.flag?), ("meta", p.metadata.toJson k)]

def ofJson? (inEntry : Bool) (j : Json) : Option Posting := do
  let r ← j.record? 5
  let account ← r.required 0 "account" Json.string?
  let position? ← r.optional 1 "position" (k.optional inEntry (Position.ofJson? k inEntry))
  let price? ← r.optional 2 "price" (k.optional inEntry (Amount.ofJson? k))
  let flag? ← r.optional 3 "flag" (k.optional inEntry Json.char?)
  let metadata ← r.required 4 "meta" (Metadata.ofJson? k inEntry)
  return { account, position?, price?, flag?, metadata }

end Posting

namespace Transaction

variable (k : Json.Formats)

def fields (t : Transaction) : List (String × Json) :=
  [("flag", .string t.flag.toString), ("payee", .ofOption .string t.payee?),
    ("narration", .string t.narration), ("tags", t.tags.toJson), ("links", t.links.toJson),
    ("postings", .ofList (Posting.toJson k) t.postings)]

def ofRecord? (r : Json.Record) : Option Transaction := do
  let flag ← r.required 0 "flag" Json.char?
  let payee? ← r.optional 1 "payee" (k.optional true Json.string?)
  let narration ← r.required 2 "narration" Json.string?
  let tags ← r.required 3 "tags" TextSet.ofJson?
  let links ← r.required 4 "links" TextSet.ofJson?
  let postings ← r.required 5 "postings" (Json.list? (Posting.ofJson? k true))
  return { flag, payee?, narration, tags, links, postings }

end Transaction

namespace Directive

variable (k : Json.Formats)

def fields : Directive → List (String × Json)
  | openAccount account currencies booking? =>
    [("account", .string account), ("currencies", .ofList .string currencies),
      ("booking", .ofOption BookingMethod.toJson booking?)]
  | closeAccount account => [("account", .string account)]
  | commodity currency => [("currency", .string currency)]
  | pad account source => [("account", .string account), ("source_account", .string source)]
  | balance account amount tolerance? =>
    [("account", .string account), ("amount", amount.toJson k),
      ("tolerance", .ofOption k.decimal.toJson tolerance?)]
  | transaction t => t.fields k
  | note account comment => [("account", .string account), ("comment", .string comment)]
  | event topic description => [("kind", .string topic), ("description", .string description)]
  | price currency amount => [("currency", .string currency), ("amount", amount.toJson k)]
  | document account filename => [("account", .string account), ("filename", .string filename)]

/-- The types of entries in the order of their numbers. -/
def types : List String :=
  ["open", "close", "commodity", "pad", "balance", "transaction", "note", "event", "price",
    "document"]

/-- A type is given by its word or by its number. -/
def type? : Json → Option String := Json.choice? true types

/-- The fields of a record that belong to the type that the word says. -/
def ofFields? (type : String) (r : Json.Record) : Option Directive :=
  match type with
  | "open" => do
    let account ← r.required 0 "account" Json.string?
    let currencies ← r.required 1 "currencies" (Json.list? Json.string?)
    let booking? ← r.optional 2 "booking" (k.optional true (BookingMethod.ofJson? true))
    return .openAccount account currencies booking?
  | "close" => do
    let account ← r.required 0 "account" Json.string?
    return .closeAccount account
  | "commodity" => do
    let currency ← r.required 0 "currency" Json.string?
    return .commodity currency
  | "pad" => do
    let account ← r.required 0 "account" Json.string?
    let source ← r.required 1 "source_account" Json.string?
    return .pad account source
  | "balance" => do
    let account ← r.required 0 "account" Json.string?
    let amount ← r.required 1 "amount" (Amount.ofJson? k)
    let tolerance? ← r.optional 2 "tolerance" (k.optional true k.decimal.read)
    return .balance account amount tolerance?
  | "transaction" => do
    let t ← Transaction.ofRecord? k r
    return .transaction t
  | "note" => do
    let account ← r.required 0 "account" Json.string?
    let comment ← r.required 1 "comment" Json.string?
    return .note account comment
  | "event" => do
    let topic ← r.required 0 "kind" Json.string?
    let description ← r.required 1 "description" Json.string?
    return .event topic description
  | "price" => do
    let currency ← r.required 0 "currency" Json.string?
    let amount ← r.required 1 "amount" (Amount.ofJson? k)
    return .price currency amount
  | "document" => do
    let account ← r.required 0 "account" Json.string?
    let filename ← r.required 1 "filename" Json.string?
    return .document account filename
  | _ => none

end Directive

namespace Entry

variable (k : Json.Formats)

def toJson (e : Entry) : Json :=
  .object ([("date", k.date.toJson e.date), ("meta", e.metadata.toJson k),
    ("type", .string e.directive.name)] ++ e.directive.fields k)

def ofJson? (j : Json) : Option Entry := do
  let r := Json.Record.named (← j.object?)
  let date ← r.required 0 "date" k.date.read
  let metadata ← r.required 1 "meta" (Metadata.ofJson? k false)
  let type ← r.required 2 "type" Directive.type?
  let directive ← Directive.ofFields? k type r
  return { date, metadata, directive }

end Entry

end PlainLedger
