import PlainLedger.Json.Formats
import PlainLedger.Proofs.Number.Rendering

/-!
# Formats that keep what they are given

What a ledger relies on when it is written with the formats of other packages and read again: dates
are read as they were written, numbers with their values and scales, and what is null as nothing. It
does not say what becomes of a date that is null in the body of an entry.
-/

namespace PlainLedger.Json.Formats

/-- What is written is read again. Two numbers have the same value and the same scale if they are
the same but for the sign of a zero. -/
structure Faithful (k : Formats) : Prop where
  date (d : Date) : k.date.read (k.date.toJson d) = some d
  decimal (d : Decimal) :
    ∃ d', k.decimal.read (k.decimal.toJson d) = some d' ∧ d'.unsigned = d.unsigned
  optional_null {α : Type} (buffered : Bool) (decode : Json → Option α) :
    k.optional buffered decode .null = some none
  optional_of_ne {α : Type} (buffered : Bool) (decode : Json → Option α) {j : Json}
    (h : j ≠ .null) :
    k.optional buffered decode j = (decode j).map some
  optionalDate_null : k.optionalDate false .null = some none
  optionalDate_buffered : k.optionalDate true .null = some none ∨ k.optionalDate true .null = none
  optionalDate_date (buffered : Bool) (d : Date) :
    k.optionalDate buffered (k.date.toJson d) = some (some d)

/-- A date that is null is not read. -/
def refusesNull (k : Formats) (buffered : Bool) : Bool := (k.optionalDate buffered .null).isNone

namespace Faithful

variable {k : Formats} {α β : Type} {encode : α → Json} {decode : Json → Option β}

/-- What is decoded of what there is, is decoded of what may be there. -/
theorem optional_ofOption (hk : k.Faithful) (buffered : Bool) {b : Bool} {p : α → Bool} {f : α → β}
    (o : Option α) (h : ∀ a, decode (encode a) = if b && !p a then none else some (f a))
    (hnull : ∀ a, encode a ≠ .null) :
    k.optional buffered decode (ofOption encode o) =
      if b && !o.all p then none else some (o.map f) := by
  cases o with
  | none => simp [ofOption, hk.optional_null]
  | some a =>
    rw [ofOption, hk.optional_of_ne buffered decode (hnull a), h a, Option.all_some,
      Option.map_some]
    split <;> rfl

theorem optional_map (hk : k.Faithful) (buffered : Bool) {f : α → β} (o : Option α)
    (h : ∀ a, decode (encode a) = some (f a)) (hnull : ∀ a, encode a ≠ .null) :
    k.optional buffered decode (ofOption encode o) = some (o.map f) := by
  rw [hk.optional_ofOption buffered (b := false) (p := fun _ ↦ true) o h hnull]
  rfl

theorem optional_string (hk : k.Faithful) (buffered : Bool) (o : Option String) :
    k.optional buffered string? (ofOption string o) = some o := by
  rw [hk.optional_map buffered o (f := id) string?_string (fun _ ↦ nofun), Option.map_id_fun, id]

theorem refusesNull_false (hk : k.Faithful) : k.refusesNull false = false := by
  rw [refusesNull, hk.optionalDate_null, Option.isNone_some]

/-- A date that is missing is all that may not be read. -/
theorem optionalDate_ofOption (hk : k.Faithful) (buffered : Bool) (o : Option Date) :
    k.optionalDate buffered (ofOption k.date.toJson o) =
      if k.refusesNull buffered && o.isNone then none else some o := by
  cases o with
  | some d => simp [ofOption, hk.optionalDate_date]
  | none =>
    cases buffered with
    | false => simp [ofOption, hk.optionalDate_null, hk.refusesNull_false]
    | true =>
      rcases hk.optionalDate_buffered with h | h
      · simp [ofOption, refusesNull, h]
      · simp [ofOption, refusesNull, h]

end Faithful

end PlainLedger.Json.Formats
