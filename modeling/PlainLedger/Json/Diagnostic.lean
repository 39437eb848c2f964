import PlainLedger.Context
import PlainLedger.Diagnostic
import PlainLedger.Json.Basic

/-!
# JSON form of positions, diagnostics and limits
-/

namespace PlainLedger

def Json.ofLine (l : Line) : Json := ofNat l.val

def Json.line? (j : Json) : Option Line := (j.nat? 0xffffffff).map fun n ↦ .clamp n

/-- Columns are numbers of 32 bits like lines, counts and depths of 64. -/
def Json.column? : Json → Option Nat := nat? 0xffffffff

def Json.count? : Json → Option Nat := nat? 0xffffffffffffffff

theorem Json.line?_ofLine (l : Line) : (ofLine l).line? = some l := by
  have h := l.isLt
  rw [ofLine, line?, nat?_ofNat (by omega)]
  exact congrArg some (Line.clamp_of_mem h)

namespace Span

def toJson (s : Span) : Json :=
  .object [("first_line", .ofNat s.firstLine), ("first_column", .ofNat s.firstColumn),
    ("last_line", .ofNat s.lastLine), ("last_column", .ofNat s.lastColumn)]

def ofJson? (j : Json) : Option Span := do
  let r ← j.record? 4
  let firstLine ← r.required 0 "first_line" Json.column?
  let firstColumn ← r.required 1 "first_column" Json.column?
  let lastLine ← r.required 2 "last_line" Json.column?
  let lastColumn ← r.required 3 "last_column" Json.column?
  return { firstLine, firstColumn, lastLine, lastColumn }

end Span

namespace Diagnostic

def Kind.ofJson? (j : Json) : Option Kind := (j.word? false).bind ofName?

def toJson (d : Diagnostic) : Json :=
  .object [("file", .string d.file), ("line", .ofLine d.line), ("kind", .string d.kind.name),
    ("message", .string d.message)]

def ofJson? (j : Json) : Option Diagnostic := do
  let r ← j.record? 4
  let file ← r.required 0 "file" Json.string?
  let line ← r.required 1 "line" Json.line?
  let kind ← r.required 2 "kind" Kind.ofJson?
  let message ← r.required 3 "message" Json.string?
  return { file, line, kind, message }

end Diagnostic

namespace Options

def toJson (o : Options) : Json :=
  .object [("initial_stack_depth", .ofNat o.initialStackDepth),
    ("max_stack_depth", .ofNat o.maxStackDepth), ("recovery_shifts", .ofNat o.recoveryShifts),
    ("max_expected_tokens", .ofNat o.maxExpectedTokens)]

/-- Limits that are left out have their usual values. -/
def ofJson? (j : Json) : Option Options := do
  let usual : Options := {}
  let r ← j.record? 4 4
  let initialStackDepth ←
    r.defaulted 0 "initial_stack_depth" usual.initialStackDepth Json.count?
  let maxStackDepth ← r.defaulted 1 "max_stack_depth" usual.maxStackDepth Json.count?
  let recoveryShifts ← r.defaulted 2 "recovery_shifts" usual.recoveryShifts (Json.nat? 255)
  let maxExpectedTokens ←
    r.defaulted 3 "max_expected_tokens" usual.maxExpectedTokens Json.count?
  return { initialStackDepth, maxStackDepth, recoveryShifts, maxExpectedTokens }

end Options

end PlainLedger
