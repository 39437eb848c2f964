import PlainLedger.Diagnostic
import PlainLedger.Machine.Stack
import PlainLedger.Token

/-!
# Reducers

What a machine asks of its user: a value for each token read and for each rule completed. A
reducer may refuse a completed rule, which the machine recovers from, or give up altogether.
-/

namespace PlainLedger

/-- What can go wrong inside a machine or a reducer; tables made from a grammar rule out the
causes that the machine itself finds. -/
inductive Defect where
  | emptyStack
  | shiftWithoutToken
  | unknownRule (rule : Nat)
  | noGoto (state rule : Nat)
  | inReducer (text : String)
  deriving DecidableEq, Repr

namespace Defect

def message : Defect → String
  | emptyStack => "parser stack is empty"
  | shiftWithoutToken => "shift without a lookahead"
  | unknownRule rule => s!"no rule {rule}"
  | noGoto state rule => s!"no goto from state {state} after rule {rule}"
  | inReducer text => text

end Defect

/-- Why a parse was given up. -/
inductive Abort where
  | stackOverflow (depth : Nat)
  /-- An unexpected token, and no state on the stack that recovery goes on from. -/
  | unrecoverable (file : String) (line : Line)
  | defect (d : Defect)
  deriving DecidableEq, Repr

namespace Abort

def message : Abort → String
  | stackOverflow depth => s!"parser stack exceeded its maximum depth of {depth}"
  | unrecoverable file line => s!"{file}:{line}: unrecoverable syntax error"
  | defect d => "internal parser error: " ++ d.message

end Abort

/-- A completed rule. -/
structure Reduction (V : Type) where
  rule : Nat
  /-- From the beginning of the first symbol to the end of the last one; what is written as
  nothing stands where the symbol before it ends. -/
  span : Span
  /-- The values and spans of the right-hand side, in source order. -/
  values : List V
  spans : List Span
  /-- The slots that stay on the stack, topmost first. -/
  below : List (Slot V)

inductive Verdict (V : Type) where
  | value (v : V)
  | rejected (message : String)
  | fatal (cause : Abort)

/-- Gives meaning to tokens and rules. `σ` is what the reducer remembers. -/
structure Reducer (α V σ : Type) where
  /-- The value of the bottom of the stack and of skipped text. -/
  blank : V
  /-- What a token stands for. -/
  ofToken : Token → σ → V × σ
  reduce : α → Reduction V → σ → Verdict V × σ
  report : Diagnostic → σ → σ
  /-- Takes back a value that is not going to be used. -/
  release : V → σ → σ

end PlainLedger
