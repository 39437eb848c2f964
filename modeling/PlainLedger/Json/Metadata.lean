import PlainLedger.Json.Amount
import PlainLedger.Json.Diagnostic

/-!
# JSON form of metadata

A value of metadata is written with the word for its type.
-/

namespace PlainLedger

namespace MetaEntry

def tagged (type : String) (content : Json) : Json :=
  .object [("type", .string type), ("value", content)]

variable (k : Json.Formats)

def toJson : MetaEntry → Json
  | string s => tagged "str" (.string s)
  | account s => tagged "account" (.string s)
  | date d => tagged "date" (k.date.toJson d)
  | currency s => tagged "currency" (.string s)
  | tag s => tagged "tag" (.string s)
  | bool b => tagged "bool" (.bool b)
  | number d => tagged "number" (k.decimal.toJson d)
  | amount a => tagged "amount" (a.toJson k)
  | null => .object [("type", .string "null")]

/-- A value of the type that the word says. -/
def ofTagged? (type : String) (content : Json) : Option MetaEntry :=
  match type with
  | "str" => content.string?.map string
  | "account" => content.string?.map account
  | "date" => (k.date.read content).map date
  | "currency" => content.string?.map currency
  | "tag" => content.string?.map tag
  | "bool" => content.bool?.map bool
  | "number" => (k.decimal.read content).map number
  | "amount" => (Amount.ofJson? k content).map amount
  | "null" => content.null?.map fun _ ↦ null
  | _ => none

/-- The types of values in the order of their numbers. -/
def types : List String :=
  ["str", "account", "date", "currency", "tag", "bool", "number", "amount", "null"]

/-- The type of a value that is given by the names of its fields is a word; in order, and in the
body of an entry, it may be a number. -/
def type? (inEntry : Bool) : Json.Record → Option String
  | .named fields => (fields.lookup "type").bind (Json.word? inEntry)
  | .listed items => items.head?.bind (Json.choice? inEntry types)

/-- A value that is left out is null. -/
def ofJson? (inEntry : Bool) (j : Json) : Option MetaEntry := do
  let r ← j.record? 2
  let type ← type? inEntry r
  ofTagged? k type ((r.get? 1 "value").getD .null)

end MetaEntry

namespace Metadata

variable (k : Json.Formats)

def toJson (m : Metadata) : Json :=
  .object ([("filename", .string m.filename), ("lineno", .ofLine m.line)] ++
    if m.values.isEmpty then [] else [("values", m.values.toJson (MetaEntry.toJson k))])

def ofJson? (inEntry : Bool) (j : Json) : Option Metadata := do
  let r ← j.record? 3 1
  let filename ← r.required 0 "filename" Json.string?
  let line ← r.required 1 "lineno" Json.line?
  let values ← r.defaulted 2 "values" .empty (TextMap.ofJson? (MetaEntry.ofJson? k inEntry))
  return { filename, line, values }

end Metadata

end PlainLedger
