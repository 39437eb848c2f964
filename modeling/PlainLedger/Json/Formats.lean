import PlainLedger.Date
import PlainLedger.Json.Basic

/-!
# Formats of dates, numbers and missing values

Dates and decimal numbers have packages of their own that write them as texts and read them, and so
do values that may be missing. What these do is a parameter of everything that is written and read
here. `Formats.standard` is what they commonly do: an integer of 64 bits is read as an exact number,
others are held to double precision.
-/

namespace PlainLedger.Json

/-- Values that are written as texts. They may be read from other values, too. -/
structure TextCodec (α : Type) where
  write : α → String
  read : Json → Option α

def TextCodec.toJson {α : Type} (c : TextCodec α) (a : α) : Json := string (c.write a)

/-- What is read from the body of an entry comes from a buffer, and not from the values that were
given. A reader may tell the two apart. -/
structure Formats where
  date : TextCodec Date
  decimal : TextCodec Decimal
  /-- Reads what may be null, by the way in which it is read if it is not. -/
  optional : {α : Type} → (buffered : Bool) → (Json → Option α) → Json → Option (Option α)
  optionalDate : (buffered : Bool) → Json → Option (Option Date)

namespace Formats

def readDate (j : Json) : Option Date := j.string?.bind Date.ofText?

def readDecimal : Json → Option Decimal
  | string s => Decimal.ofText? s
  | integer n =>
    if -0x8000000000000000 ≤ n ∧ n < 0x10000000000000000 then
      Decimal.ofParts? (decide (n < 0)) n.natAbs 0
    else Decimal.ofNumeral? (.ofInt n)
  | real x => Decimal.ofNumeral? x
  | _ => none

/-- Nothing stands for itself. -/
def readOptional {α : Type} (decode : Json → Option α) : Json → Option (Option α)
  | null => some none
  | j => (decode j).map some

/-- A null from a buffer comes as a unit and not as nothing, and the reader of dates that may be
missing knows only nothing and something. So it does not read it. -/
def standard : Formats where
  date := ⟨Date.render, readDate⟩
  decimal := ⟨Decimal.render, readDecimal⟩
  optional _ := readOptional
  optionalDate buffered j := if buffered then (readDate j).map some else readOptional readDate j

end Formats

end PlainLedger.Json
