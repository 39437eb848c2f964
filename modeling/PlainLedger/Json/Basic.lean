import PlainLedger.Number.Numeral

/-!
# JSON values

Values as they are exchanged with other programs. A number is either an integer or written with a
fraction or an exponent, and then it is no integer whatever its value. A record may be given by
the names of its fields or as an array of its fields in their order.
-/

namespace PlainLedger

inductive Json where
  | null
  | bool (b : Bool)
  | integer (n : Int)
  | real (x : Numeral)
  | string (s : String)
  | array (items : List Json)
  | object (fields : List (String × Json))
  deriving Repr

namespace Json

instance : Inhabited Json := ⟨null⟩

def ofNat (n : Nat) : Json := integer n

def ofOption {α : Type} (encode : α → Json) : Option α → Json
  | none => null
  | some a => encode a

def ofList {α : Type} (encode : α → Json) (xs : List α) : Json := array (xs.map encode)

def null? : Json → Option Unit
  | null => some ()
  | _ => none

def string? : Json → Option String
  | string s => some s
  | _ => none

def bool? : Json → Option Bool
  | bool b => some b
  | _ => none

/-- A natural number up to `limit`. -/
def nat? (limit : Nat) : Json → Option Nat
  | integer n => if 0 ≤ n ∧ n ≤ limit then some n.toNat else none
  | _ => none

def array? : Json → Option (List Json)
  | array items => some items
  | _ => none

def object? : Json → Option (List (String × Json))
  | object fields => some fields
  | _ => none

/-- A text of exactly one character. -/
def char? : Json → Option Char
  | string s =>
    match s.toList with
    | [c] => some c
    | _ => none
  | _ => none

def list? {α : Type} (decode : Json → Option α) (j : Json) : Option (List α) :=
  j.array?.bind fun items ↦ items.mapM decode

/-- Entries of an object, each decoded. -/
def entries? {α : Type} (decode : Json → Option α) (j : Json) : Option (List (String × α)) :=
  j.object?.bind fun fields ↦ fields.mapM fun (k, v) ↦ (decode v).map fun v ↦ (k, v)

/-- A word of a fixed list may also be given as the only key of an object, with nothing under it.
In the body of an entry an object without fields is nothing, too. -/
def word? (inEntry : Bool) : Json → Option String
  | string s => some s
  | object [(s, null)] => some s
  | object [(s, object [])] => if inEntry then some s else none
  | _ => none

/-- A word of a fixed list, which in the body of an entry may also be given by its place in the
list. -/
def choice? (inEntry : Bool) (words : List String) : Json → Option String
  | string s => some s
  | integer n => if inEntry ∧ 0 ≤ n then words[n.toNat]? else none
  | _ => none

/-- The fields of a record that are given: by name, or in order. -/
inductive Record where
  | named (fields : List (String × Json))
  | listed (items : List Json)

/-- An array gives all `count` fields of a record, but may lack the last ones that are optional. -/
def record? (count : Nat) (optional : Nat := 0) : Json → Option Record
  | object fields => some (.named fields)
  | array items =>
    if count ≤ items.length + optional ∧ items.length ≤ count then some (.listed items) else none
  | _ => none

namespace Record

def get? (r : Record) (place : Nat) (name : String) : Option Json :=
  match r with
  | named fields => fields.lookup name
  | listed items => items[place]?

/-- A field that has to be given. -/
def required {α : Type} (r : Record) (place : Nat) (name : String) (decode : Json → Option α) :
    Option α :=
  (r.get? place name).bind decode

/-- A field that may be left out, and then there is nothing. -/
def optional {α : Type} (r : Record) (place : Nat) (name : String)
    (decode : Json → Option (Option α)) : Option (Option α) :=
  match r.get? place name with
  | none => some none
  | some j => decode j

/-- A field that may be left out, with the value it then has. -/
def defaulted {α : Type} (r : Record) (place : Nat) (name : String) (value : α)
    (decode : Json → Option α) : Option α :=
  match r.get? place name with
  | none => some value
  | some j => decode j

end Record

@[simp] theorem string?_string (s : String) : (string s).string? = some s := rfl

@[simp] theorem word?_string (inEntry : Bool) (s : String) :
    (string s).word? inEntry = some s := rfl

@[simp] theorem bool?_bool (b : Bool) : (bool b).bool? = some b := rfl

theorem nat?_ofNat {limit n : Nat} (h : n ≤ limit) : (ofNat n).nat? limit = some n := by
  simp [ofNat, nat?]
  omega

theorem list?_ofList {α : Type} {encode : α → Json} {decode : Json → Option α} {xs : List α}
    (h : ∀ x ∈ xs, decode (encode x) = some x) : (ofList encode xs).list? decode = some xs := by
  simp only [ofList, list?, array?, Option.bind_some]
  induction xs with
  | nil => rfl
  | cons x xs ih =>
    simp only [List.map_cons, List.mapM_cons, h x (by simp),
      ih fun y hy ↦ h y (List.mem_cons_of_mem x hy)]
    rfl

end Json

end PlainLedger
