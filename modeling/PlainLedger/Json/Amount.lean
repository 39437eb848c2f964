import PlainLedger.Book.Ledger
import PlainLedger.Json.Formats

/-!
# JSON form of amounts and lots

Numbers and dates are written as texts, so that nothing is lost.
-/

namespace PlainLedger

namespace TextSet

def toJson (s : TextSet) : Json := .ofList .string s.toList

def ofJson? (j : Json) : Option TextSet := (j.list? Json.string?).map ofList

end TextSet

namespace TextMap

variable {β : Type}

def toJson (encode : β → Json) (m : TextMap β) : Json :=
  .object (m.entries.map fun (k, v) ↦ (k, encode v))

def ofJson? (decode : Json → Option β) (j : Json) : Option (TextMap β) :=
  (j.entries? decode).map ofPairs

end TextMap

namespace Amount

variable (k : Json.Formats)

def toJson (a : Amount) : Json :=
  .object [("number", k.decimal.toJson a.number), ("currency", .string a.currency)]

def ofJson? (j : Json) : Option Amount := do
  let r ← j.record? 2
  let number ← r.required 0 "number" k.decimal.read
  let currency ← r.required 1 "currency" Json.string?
  return { number, currency }

end Amount

namespace CostSpec

variable (k : Json.Formats)

def toJson (c : CostSpec) : Json :=
  .object [("number_per", .ofOption k.decimal.toJson c.perUnit?),
    ("number_total", .ofOption k.decimal.toJson c.total?),
    ("currency", .ofOption .string c.currency?), ("date", .ofOption k.date.toJson c.date?),
    ("label", .ofOption .string c.label?), ("merge", .bool c.merge)]

/-- The date of a lot is always given, and may be null if the format allows it. -/
def ofJson? (inEntry : Bool) (j : Json) : Option CostSpec := do
  let r ← j.record? 6
  let perUnit? ← r.optional 0 "number_per" (k.optional inEntry k.decimal.read)
  let total? ← r.optional 1 "number_total" (k.optional inEntry k.decimal.read)
  let currency? ← r.optional 2 "currency" (k.optional inEntry Json.string?)
  let date? ← r.required 3 "date" (k.optionalDate inEntry)
  let label? ← r.optional 4 "label" (k.optional inEntry Json.string?)
  let merge ← r.required 5 "merge" Json.bool?
  return { perUnit?, total?, currency?, date?, label?, merge }

end CostSpec

namespace Position

variable (k : Json.Formats)

def toJson (p : Position) : Json :=
  .object [("units", p.units.toJson k), ("cost", .ofOption (CostSpec.toJson k) p.cost?)]

def ofJson? (inEntry : Bool) (j : Json) : Option Position := do
  let r ← j.record? 2
  let units ← r.required 0 "units" (Amount.ofJson? k)
  let cost? ← r.optional 1 "cost" (k.optional inEntry (CostSpec.ofJson? k inEntry))
  return { units, cost? }

end Position

end PlainLedger
