import PlainLedger.Machine.Run

/-!
# Parses as terms

A reducer for grammars whose actions are names: a parse is written as a term of them. Chosen
actions are refused, or make it give up.
-/

namespace PlainLedger

/-- A token as a term: what it carries, or the name of its kind. -/
def Token.term (t : Token) : String :=
  match t.payload with
  | .text s => s
  | .char c => c.toString
  | .none => t.kind.name

namespace Reducer

/-- An action applied to values. -/
def termText (action : String) (values : List String) : String :=
  action ++ "(" ++ String.intercalate " " values ++ ")"

/-- Reduces to terms such as `add(1 PLUS 2)`, and keeps the diagnostics. -/
def term (refused fatal : List String) : Reducer String String (Array Diagnostic) where
  blank := ""
  ofToken t memory := (t.term, memory)
  reduce action r memory :=
    if action ∈ refused then (.rejected (action ++ " rejected"), memory)
    else if action ∈ fatal then
      (.fatal (.defect (.inReducer (action ++ " is fatal"))), memory)
    else (.value (termText action r.values), memory)
  report d memory := memory.push d
  release _ memory := memory

end Reducer

end PlainLedger
