import PlainLedger.Automaton.Table

/-!
# Messages about unexpected tokens
-/

namespace PlainLedger

/-- `syntax error, unexpected X, expecting A or B`, with at most `limit` alternatives. -/
def unexpectedMessage (found : Terminal) (expected : List Terminal) (limit : Nat) : String :=
  let alternatives := (expected.take limit).map Terminal.name
  let ending :=
    if alternatives.isEmpty then "" else ", expecting " ++ String.intercalate " or " alternatives
  "syntax error, unexpected " ++ found.name ++ ending

/-- A token that is itself the report of an error is not reported again. -/
def Terminal.isSilent (t : Terminal) : Bool := t == .lexError

end PlainLedger
