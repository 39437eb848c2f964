import PlainLedger.Line
import PlainLedger.Span

/-!
# Context of a parse

Which file is read, how its lines are numbered in reports, and the limits a parse keeps to.
-/

namespace PlainLedger

/-- The file and line that a construct begins at. -/
structure Provenance where
  file : String
  line : Line
  deriving DecidableEq, Repr

/-- How far reports move the lines of a text. Offsets have 64 bits and lines 32; these are the
offsets that can be added to every line without leaving 64 bits. -/
structure LineOffset where
  val : Int
  least : -0x8000000000000000 ≤ val
  most : val + 0xffffffff ≤ 0x7fffffffffffffff
  deriving DecidableEq, Repr

namespace LineOffset

instance : Coe LineOffset Int := ⟨val⟩

/-- Numerals below `2 ^ 62`. -/
instance (n : Nat) : OfNat LineOffset n :=
  ⟨(n % 0x4000000000000000 : Nat), by omega, by omega⟩

@[simp] theorem val_zero : (0 : LineOffset).val = 0 := rfl

end LineOffset

/-- A text may be part of a file: `lineOffset` is added to every line of it. -/
structure Context where
  file : String
  lineOffset : LineOffset
  deriving DecidableEq, Repr

namespace Context

/-- The line that reports give for a line of the text. -/
def reported (ctx : Context) (line : Nat) : Line := .clamp (line + ctx.lineOffset.val)

def lineOf (ctx : Context) (span : Span) : Line := ctx.reported span.firstLine

def provenance (ctx : Context) (span : Span) : Provenance := ⟨ctx.file, ctx.lineOf span⟩

theorem reported_mono (ctx : Context) {k l : Nat} (h : k ≤ l) :
    ctx.reported k ≤ ctx.reported l :=
  Line.clamp_mono (by omega)

end Context

/-- Limits of a parse. -/
structure Options where
  /-- Slots the stack begins with room for. -/
  initialStackDepth : Nat := 200
  /-- Slots the stack may grow to. -/
  maxStackDepth : Nat := 10000
  /-- Tokens to be shifted after a recovery before the next unexpected token is reported. -/
  recoveryShifts : Nat := 3
  /-- Alternatives that a message about an unexpected token lists. -/
  maxExpectedTokens : Nat := 4
  deriving DecidableEq, Repr

instance : Inhabited Options := ⟨{}⟩

end PlainLedger
