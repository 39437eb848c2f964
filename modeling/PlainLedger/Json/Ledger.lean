import PlainLedger.Json.Entry

/-!
# JSON form of ledgers
-/

namespace PlainLedger

namespace Plugin

def toJson (p : Plugin) : Json :=
  .object [("name", .string p.name), ("config", .ofOption .string p.config?)]

def ofJson? (k : Json.Formats) (j : Json) : Option Plugin := do
  let r ← j.record? 2
  let name ← r.required 0 "name" Json.string?
  let config? ← r.optional 1 "config" (k.optional false Json.string?)
  return { name, config? }

end Plugin

namespace Ledger

variable (k : Json.Formats)

/-- The history of options is written only if there is any. -/
def toJson (l : Ledger) : Json :=
  .object ([("entries", .ofList (Entry.toJson k) l.entries),
    ("errors", .ofList Diagnostic.toJson l.errors), ("options", l.options.toJson .string)] ++
    (if l.optionHistory.isEmpty then []
      else [("option_history", l.optionHistory.toJson (.ofList .string))]) ++
    [("includes", .ofList .string l.includes), ("plugins", .ofList Plugin.toJson l.plugins)])

def ofJson? (j : Json) : Option Ledger := do
  let r ← j.record? 6
  let entries ← r.required 0 "entries" (Json.list? (Entry.ofJson? k))
  let errors ← r.required 1 "errors" (Json.list? Diagnostic.ofJson?)
  let options ← r.required 2 "options" (TextMap.ofJson? Json.string?)
  let optionHistory ←
    r.defaulted 3 "option_history" .empty (TextMap.ofJson? (Json.list? Json.string?))
  let includes ← r.required 4 "includes" (Json.list? Json.string?)
  let plugins ← r.required 5 "plugins" (Json.list? (Plugin.ofJson? k))
  return { entries, errors, options, optionHistory, includes, plugins }

end Ledger

end PlainLedger
