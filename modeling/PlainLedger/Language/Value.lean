/-!
# Values of phrases

What a phrase of the language stands for while the text around it is being read. Objects of a
ledger are made by an interpretation and are known here by their handles only. Each handle is held
by one value and is used once.
-/

namespace PlainLedger.Language

/-- What follows the flag of a transaction. -/
structure TxnFields where
  /-- The payee and the narration. -/
  strings : List String := []
  tags : List String := []
  links : List String := []
  deriving DecidableEq, Repr

/-- A line under the head of a transaction. -/
inductive TxnLine (H : Type) where
  | posting (h : H)
  | detail (h : H)
  deriving DecidableEq, Repr

/-- A clause of a lot specification. -/
inductive LotComponent (H : Type) where
  | cost (h : H)
  | date (text : String)
  | label (text : String)
  | merge
  deriving DecidableEq, Repr

/-- What is written after the key of a metadata line. -/
inductive MetaValue (H : Type) where
  | string (s : String)
  | account (s : String)
  | date (s : String)
  | currency (s : String)
  | tag (s : String)
  | bool (b : Bool)
  | number (h : H)
  | amount (h : H)
  | empty
  deriving DecidableEq, Repr

inductive Value (H : Type) where
  /-- Punctuation, line ends and phrases that stand for nothing. -/
  | nothing
  | char (c : Char)
  | text (s : String)
  | handle (h : H)
  /-- An amount and the tolerance it is given with. -/
  | pair (amount : H) (tolerance? : Option H)
  | list (hs : List H)
  | lines (xs : List (TxnLine H))
  | strings (xs : List String)
  | fields (f : TxnFields)
  | component (x : LotComponent H)
  | components (xs : List (LotComponent H))
  | metadata (m : MetaValue H)
  deriving DecidableEq, Repr

variable {H : Type}

def TxnLine.handles : TxnLine H → List H
  | posting h => [h]
  | detail h => [h]

def LotComponent.handles : LotComponent H → List H
  | cost h => [h]
  | _ => []

def MetaValue.handles : MetaValue H → List H
  | number h => [h]
  | amount h => [h]
  | _ => []

namespace Value

/-- The handles that a value holds. -/
def handles : Value H → List H
  | handle h => [h]
  | pair amount tolerance? => amount :: tolerance?.toList
  | list hs => hs
  | lines xs => xs.flatMap TxnLine.handles
  | component x => x.handles
  | components xs => xs.flatMap LotComponent.handles
  | metadata m => m.handles
  | _ => []

/-- The word for the shape of a value. -/
def shape : Value H → String
  | nothing => "nothing"
  | char _ => "char"
  | text _ => "text"
  | handle _ => "handle"
  | pair .. => "pair"
  | list _ => "list"
  | lines _ => "lines"
  | strings _ => "strings"
  | fields _ => "fields"
  | component _ => "component"
  | components _ => "components"
  | metadata _ => "meta"

end Value

end PlainLedger.Language
