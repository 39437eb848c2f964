import PlainLedger.Json.Ledger
import PlainLedger.Proofs.Json.Formats

/-!
# Ledgers are read back

The JSON form of a ledger is read as the ledger, with its numbers up to the signs of zeros. There is
one exception, a lot without a date: the date is written as null, and a format may refuse to read a
date that is null from the body of an entry. Then a ledger with such a lot is not read at all.
-/

namespace PlainLedger

/-! ## Records and lists -/

namespace Json

variable {α β : Type} {encode : α → Json} {decode : Json → Option β}

@[simp] theorem record?_object (fields : List (String × Json)) (count optional : Nat) :
    (object fields).record? count optional = some (.named fields) := rfl

@[simp] theorem Record.required_named (fields : List (String × Json)) (place : Nat)
    (name : String) :
    (Record.named fields).required place name decode = (fields.lookup name).bind decode := rfl

theorem Record.optional_named {decode : Json → Option (Option β)} {fields : List (String × Json)}
    {j : Json} {name : String} (h : fields.lookup name = some j) (place : Nat) :
    (Record.named fields).optional place name decode = decode j := by
  simp [Record.optional, Record.get?, h]

@[simp] theorem char?_singleton (c : Char) : (string (String.singleton c)).char? = some c := by
  simp [char?]

theorem list?_string (xs : List String) : (ofList string xs).list? string? = some xs :=
  list?_ofList fun x _ ↦ string?_string x

/-- What is decoded of one, is decoded of all. -/
theorem list?_ite {b : Bool} {p : α → Bool} {f : α → β} (xs : List α)
    (h : ∀ x, decode (encode x) = if b && !p x then none else some (f x)) :
    (ofList encode xs).list? decode = if b && !xs.all p then none else some (xs.map f) := by
  simp only [ofList, list?, array?, Option.bind_some]
  induction xs with
  | nil => simp
  | cons x xs ih =>
    rw [List.map_cons, List.mapM_cons, h, ih]
    cases b <;> cases hx : p x <;> cases hxs : xs.all p <;> simp [hx, hxs]

end Json

namespace TextSet

@[simp] theorem ofJson?_toJson (s : TextSet) : ofJson? s.toJson = some s := by
  rw [ofJson?, toJson, Json.list?_ofList fun x _ ↦ Json.string?_string x, Option.map_some,
    ofList_toList]

end TextSet

namespace TextMap

variable {β γ : Type}

/-- Other values under the same texts. -/
def map (f : β → γ) (m : TextMap β) : TextMap γ where
  entries := m.entries.map fun x ↦ (x.1, f x.2)
  ascending := by
    rw [List.map_map]
    exact m.ascending

@[simp] theorem map_id (m : TextMap β) : m.map id = m := by
  simp [map]

theorem ofJson?_toJson {encode : β → Json} {decode : Json → Option γ} {f : β → γ}
    (h : ∀ v, decode (encode v) = some (f v)) (m : TextMap β) :
    ofJson? decode (m.toJson encode) = some (m.map f) := by
  have hentries : ∀ xs : List (String × β), (xs.map fun x ↦ (x.1, encode x.2)).mapM
      (fun x ↦ (decode x.2).map fun v ↦ (x.1, v)) = some (xs.map fun x ↦ (x.1, f x.2)) := by
    intro xs
    induction xs with
    | nil => rfl
    | cons x xs ih => simp [ih, h]
  have hdecoded : (m.toJson encode).entries? decode = some (m.map f).entries := hentries m.entries
  rw [ofJson?, hdecoded, Option.map_some, ofPairs_entries]

/-- A field for a map that is left out where the map is empty. -/
theorem defaulted_toJson {encode : β → Json} {decode : Json → Option γ} {f : β → γ}
    (h : ∀ v, decode (encode v) = some (f v)) (m : TextMap β) (fields : List (String × Json))
    (name : String)
    (hfields : fields.lookup name = if m.isEmpty then none else some (m.toJson encode))
    (place : Nat) :
    (Json.Record.named fields).defaulted place name .empty (ofJson? decode) = some (m.map f) := by
  rw [Json.Record.defaulted, Json.Record.get?, hfields]
  cases hempty : m.isEmpty with
  | true =>
    obtain ⟨entries, hascending⟩ := m
    obtain rfl : entries = [] := List.isEmpty_iff.mp hempty
    rfl
  | false => exact ofJson?_toJson h m

end TextMap

/-! ## Amounts and lots -/

namespace Amount

def mapNumbers (f : Decimal → Decimal) (a : Amount) : Amount := { a with number := f a.number }

end Amount

namespace CostSpec

def mapNumbers (f : Decimal → Decimal) (c : CostSpec) : CostSpec :=
  { c with perUnit? := c.perUnit?.map f, total? := c.total?.map f }

/-- The lot has a date. -/
def dated (c : CostSpec) : Bool := c.date?.isSome

end CostSpec

namespace Position

def mapNumbers (f : Decimal → Decimal) (p : Position) : Position where
  units := p.units.mapNumbers f
  cost? := p.cost?.map (CostSpec.mapNumbers f)

/-- The lot has a date, if there is one. -/
def dated (p : Position) : Bool := p.cost?.all CostSpec.dated

end Position

namespace MetaEntry

def mapNumbers (f : Decimal → Decimal) : MetaEntry → MetaEntry
  | number d => number (f d)
  | amount a => amount (a.mapNumbers f)
  | e => e

end MetaEntry

namespace Metadata

def mapNumbers (f : Decimal → Decimal) (m : Metadata) : Metadata :=
  { m with values := m.values.map (MetaEntry.mapNumbers f) }

/-- The fields of metadata. -/
def fields (k : Json.Formats) (m : Metadata) : List (String × Json) :=
  [("filename", .string m.filename), ("lineno", .ofLine m.line)] ++
    if m.values.isEmpty then [] else [("values", m.values.toJson (MetaEntry.toJson k))]

end Metadata

namespace Posting

def mapNumbers (f : Decimal → Decimal) (p : Posting) : Posting :=
  { p with
    position? := p.position?.map (Position.mapNumbers f)
    price? := p.price?.map (Amount.mapNumbers f)
    metadata := p.metadata.mapNumbers f }

/-- The lot has a date, if there is one. -/
def dated (p : Posting) : Bool := p.position?.all Position.dated

end Posting

namespace Transaction

def mapNumbers (f : Decimal → Decimal) (t : Transaction) : Transaction :=
  { t with postings := t.postings.map (Posting.mapNumbers f) }

/-- The lots of its postings have dates. -/
def dated (t : Transaction) : Bool := t.postings.all Posting.dated

end Transaction

namespace Directive

def mapNumbers (f : Decimal → Decimal) : Directive → Directive
  | balance account amount tolerance? => balance account (amount.mapNumbers f) (tolerance?.map f)
  | transaction t => transaction (t.mapNumbers f)
  | price currency amount => price currency (amount.mapNumbers f)
  | d => d

def dated : Directive → Bool
  | transaction t => t.dated
  | _ => true

end Directive

namespace Entry

def mapNumbers (f : Decimal → Decimal) (e : Entry) : Entry where
  date := e.date
  metadata := e.metadata.mapNumbers f
  directive := e.directive.mapNumbers f

end Entry

namespace Ledger

def mapNumbers (f : Decimal → Decimal) (l : Ledger) : Ledger :=
  { l with entries := l.entries.map (Entry.mapNumbers f) }

/-- The ledger with unsigned zeros. -/
def unsigned (l : Ledger) : Ledger := l.mapNumbers Decimal.unsigned

/-- Every lot has a date. -/
def dated (l : Ledger) : Bool := l.entries.all fun e ↦ e.directive.dated

/-- The fields of a ledger. -/
def fields (k : Json.Formats) (l : Ledger) : List (String × Json) :=
  [("entries", .ofList (Entry.toJson k) l.entries),
    ("errors", .ofList Diagnostic.toJson l.errors), ("options", l.options.toJson .string)] ++
    (if l.optionHistory.isEmpty then []
      else [("option_history", l.optionHistory.toJson (.ofList .string))]) ++
    [("includes", .ofList .string l.includes), ("plugins", .ofList Plugin.toJson l.plugins)]

end Ledger

/-! ## Numbers made of numbers -/

section Composition

variable {f g : Decimal → Decimal}

theorem CostSpec.mapNumbers_comp : mapNumbers (g ∘ f) = mapNumbers g ∘ mapNumbers f := by
  funext c
  simp [mapNumbers]

theorem Position.mapNumbers_comp : mapNumbers (g ∘ f) = mapNumbers g ∘ mapNumbers f := by
  funext p
  simp [mapNumbers, CostSpec.mapNumbers_comp, Amount.mapNumbers]

theorem MetaEntry.mapNumbers_comp : mapNumbers (g ∘ f) = mapNumbers g ∘ mapNumbers f := by
  funext e
  cases e <;> rfl

theorem Metadata.mapNumbers_comp : mapNumbers (g ∘ f) = mapNumbers g ∘ mapNumbers f := by
  funext m
  simp [mapNumbers, TextMap.map, MetaEntry.mapNumbers_comp]

theorem Posting.mapNumbers_comp : mapNumbers (g ∘ f) = mapNumbers g ∘ mapNumbers f := by
  have hprice : Amount.mapNumbers (g ∘ f) = Amount.mapNumbers g ∘ Amount.mapNumbers f := rfl
  funext p
  simp [mapNumbers, Position.mapNumbers_comp, Metadata.mapNumbers_comp, hprice]

theorem Directive.mapNumbers_comp : mapNumbers (g ∘ f) = mapNumbers g ∘ mapNumbers f := by
  funext d
  cases d <;> simp [mapNumbers, Transaction.mapNumbers, Posting.mapNumbers_comp, Amount.mapNumbers]

theorem Ledger.mapNumbers_comp : mapNumbers (g ∘ f) = mapNumbers g ∘ mapNumbers f := by
  have hentry : Entry.mapNumbers (g ∘ f) = Entry.mapNumbers g ∘ Entry.mapNumbers f := by
    funext e
    simp [Entry.mapNumbers, Metadata.mapNumbers_comp, Directive.mapNumbers_comp]
  funext l
  simp [mapNumbers, hentry]

end Composition

/-! ## What is written is read -/

theorem Diagnostic.ofJson?_toJson (d : Diagnostic) : ofJson? d.toJson = some d := by
  simp [ofJson?, toJson, List.lookup_cons, Json.line?_ofLine, Kind.ofJson?, Kind.ofName?_name]

section Reading

variable {k : Json.Formats} {f : Decimal → Decimal} (hk : k.Faithful)
  (hf : ∀ d, k.decimal.read (k.decimal.toJson d) = some (f d))

include hf in
theorem Amount.ofJson?_toJson (a : Amount) : ofJson? k (a.toJson k) = some (a.mapNumbers f) := by
  simp [ofJson?, toJson, List.lookup_cons, mapNumbers, hf]

include hk in
theorem BookingMethod.optional_ofJson? (o : Option BookingMethod) :
    k.optional true (ofJson? true) (Json.ofOption toJson o) = some o := by
  have hread : ∀ m : BookingMethod, ofJson? true m.toJson = some m := ofName?_name
  rw [hk.optional_map true o (f := id) hread (fun _ ↦ nofun), Option.map_id_fun, id]

include hk in
theorem Plugin.ofJson?_toJson (p : Plugin) : ofJson? k p.toJson = some p := by
  simp [ofJson?, toJson, List.lookup_cons, Json.Record.optional_named, hk.optional_string]

include hk hf

theorem Json.Formats.Faithful.optional_decimal (buffered : Bool) (o : Option Decimal) :
    k.optional buffered k.decimal.read (Json.ofOption k.decimal.toJson o) = some (o.map f) :=
  hk.optional_map buffered o hf fun _ ↦ nofun

theorem CostSpec.ofJson?_toJson (inEntry : Bool) (c : CostSpec) :
    ofJson? k inEntry (c.toJson k) =
      if k.refusesNull inEntry && !c.dated then none else some (c.mapNumbers f) := by
  cases hdate : c.date? <;> cases hnull : k.refusesNull inEntry <;>
    simp [ofJson?, toJson, List.lookup_cons, Json.Record.optional_named, hk.optional_decimal hf,
      hk.optional_string, hk.optionalDate_ofOption, dated, mapNumbers, hdate, hnull]

theorem Position.ofJson?_toJson (inEntry : Bool) (p : Position) :
    ofJson? k inEntry (p.toJson k) =
      if k.refusesNull inEntry && !p.dated then none else some (p.mapNumbers f) := by
  have hcost := hk.optional_ofOption inEntry p.cost? (CostSpec.ofJson?_toJson hk hf inEntry)
    (fun _ ↦ nofun)
  change _ = if k.refusesNull inEntry && !p.dated then none else _ at hcost
  cases hd : p.dated <;> cases hnull : k.refusesNull inEntry <;>
    simp [ofJson?, toJson, List.lookup_cons, Json.Record.optional_named, Amount.ofJson?_toJson hf,
      hcost, hd, hnull, mapNumbers]

theorem MetaEntry.ofJson?_toJson (inEntry : Bool) (e : MetaEntry) :
    ofJson? k inEntry (e.toJson k) = some (e.mapNumbers f) := by
  cases e <;> simp [ofJson?, toJson, tagged, type?, ofTagged?, List.lookup_cons, Json.Record.get?,
    Json.null?, mapNumbers, hf, hk.date, Amount.ofJson?_toJson hf]

theorem Metadata.ofJson?_toJson (inEntry : Bool) (m : Metadata) :
    ofJson? k inEntry (m.toJson k) = some (m.mapNumbers f) := by
  have hvalues := TextMap.defaulted_toJson (MetaEntry.ofJson?_toJson hk hf inEntry) m.values
    (m.fields k) "values" (by cases h : m.values.isEmpty <;> simp [fields, h, List.lookup_cons]) 2
  have hjson : m.toJson k = .object (m.fields k) := rfl
  simp only [ofJson?, hjson, Json.record?_object, Option.bind_eq_bind, Option.bind_some, hvalues]
  simp [fields, List.lookup_cons, Json.line?_ofLine, mapNumbers]

theorem Posting.ofJson?_toJson (inEntry : Bool) (p : Posting) :
    ofJson? k inEntry (p.toJson k) =
      if k.refusesNull inEntry && !p.dated then none else some (p.mapNumbers f) := by
  have hposition := hk.optional_ofOption inEntry p.position?
    (Position.ofJson?_toJson hk hf inEntry) (fun _ ↦ nofun)
  have hprice := hk.optional_map inEntry p.price? (Amount.ofJson?_toJson hf) (fun _ ↦ nofun)
  have hflag := hk.optional_map inEntry p.flag? (f := id) Json.char?_singleton (fun _ ↦ nofun)
  change _ = if k.refusesNull inEntry && !p.dated then none else _ at hposition
  cases hd : p.dated <;> cases hnull : k.refusesNull inEntry <;>
    simp [ofJson?, toJson, List.lookup_cons, Json.Record.optional_named, hposition, hprice, hflag,
      Metadata.ofJson?_toJson hk hf, hd, hnull, mapNumbers]

/-- The fields of a directive are found among those of its entry. -/
theorem Directive.ofFields?_fields (date metadata type : Json) (d : Directive) :
    ofFields? k d.name
        (.named ([("date", date), ("meta", metadata), ("type", type)] ++ d.fields k)) =
      if k.refusesNull true && !d.dated then none else some (d.mapNumbers f) := by
  cases d with
  | transaction t =>
    have hpostings := Json.list?_ite t.postings (Posting.ofJson?_toJson hk hf true)
    change _ = if k.refusesNull true && !t.dated then none else _ at hpostings
    cases hd : t.dated <;> cases hnull : k.refusesNull true <;>
      simp [ofFields?, name, fields, Transaction.fields, Transaction.ofRecord?, List.lookup_cons,
        Json.Record.optional_named, hk.optional_string, Json.char?_singleton, hpostings, hd, hnull,
        dated, mapNumbers, Transaction.mapNumbers]
  | _ =>
    simp [ofFields?, name, fields, List.lookup_cons, Json.Record.optional_named,
      Json.list?_string, BookingMethod.optional_ofJson? hk, hk.optional_decimal hf,
      Amount.ofJson?_toJson hf, dated, mapNumbers]

theorem Entry.ofJson?_toJson (e : Entry) :
    ofJson? k (e.toJson k) =
      if k.refusesNull true && !e.directive.dated then none else some (e.mapNumbers f) := by
  have hdirective := Directive.ofFields?_fields hk hf (k.date.toJson e.date) (e.metadata.toJson k)
    (.string e.directive.name) e.directive
  simp only [List.cons_append, List.nil_append] at hdirective
  cases hd : e.directive.dated <;> cases hnull : k.refusesNull true <;>
    simp [ofJson?, toJson, Json.object?, List.lookup_cons, hk.date, Metadata.ofJson?_toJson hk hf,
      Directive.type?, Json.choice?, hdirective, hd, hnull, mapNumbers]

theorem Ledger.ofJson?_toJson (l : Ledger) :
    ofJson? k (l.toJson k) =
      if k.refusesNull true && !l.dated then none else some (l.mapNumbers f) := by
  have hentries := Json.list?_ite (p := fun e ↦ e.directive.dated) l.entries
    (Entry.ofJson?_toJson hk hf)
  change _ = if k.refusesNull true && !l.dated then none else _ at hentries
  have herrors : (Json.ofList Diagnostic.toJson l.errors).list? Diagnostic.ofJson? =
      some l.errors := Json.list?_ofList fun d _ ↦ Diagnostic.ofJson?_toJson d
  have hplugins : (Json.ofList Plugin.toJson l.plugins).list? (Plugin.ofJson? k) =
      some l.plugins := Json.list?_ofList fun p _ ↦ Plugin.ofJson?_toJson hk p
  have hoptions := TextMap.ofJson?_toJson (f := id) Json.string?_string l.options
  have hhistory := TextMap.defaulted_toJson (f := id) Json.list?_string l.optionHistory (l.fields k)
    "option_history" (by cases h : l.optionHistory.isEmpty <;> simp [fields, h, List.lookup_cons]) 3
  rw [TextMap.map_id] at hoptions hhistory
  have hjson : l.toJson k = .object (l.fields k) := rfl
  simp only [ofJson?, hjson, Json.record?_object, Option.bind_eq_bind, Option.bind_some, hhistory]
  cases hd : l.dated <;> cases hnull : k.refusesNull true <;>
    cases h : l.optionHistory.isEmpty <;>
      simp [fields, List.lookup_cons, hentries, herrors, hplugins, hoptions,
        Json.list?_string, h, hd,
        hnull, mapNumbers]

end Reading

namespace Ledger

end Ledger

end PlainLedger
