import PlainLedger.Book.Node
import PlainLedger.Context
import PlainLedger.Language.Value

/-!
# Lines of a transaction

Under the head of a transaction stand postings and metadata. Metadata belongs to the posting above
it, and before the first posting to the transaction. Of several values under one key the last one
counts.
-/

namespace PlainLedger

open PlainLedger.Language

def Metadata.ofOrigin (origin : Provenance) : Metadata := ⟨origin.file, origin.line, .empty⟩

def Metadata.putAll (m : Metadata) (values : List (String × MetaEntry)) : Metadata :=
  { m with values := values.foldl (fun m (k, v) ↦ m.put k v) m.values }

/-- A line of a transaction whose object is known. -/
inductive TxnItem where
  | posting (p : Posting)
  | detail (key : String) (value : MetaEntry)
  deriving DecidableEq, Repr

namespace TxnItem

def ofLine : TxnLine Node → Except BookError TxnItem
  | .posting n => n.toPosting.map posting
  | .detail n => n.toKeyValue.map fun (k, v) ↦ detail k v

/-- The metadata of a transaction and its postings so far, with one more line. Metadata goes to the
last posting, and to the transaction where there is none. -/
def attach : Metadata × List Posting → TxnItem → Metadata × List Posting
  | (m, ps), posting p => (m, ps ++ [p])
  | (m, ps), detail k v =>
    match ps.getLast? with
    | none => ({ m with values := m.values.put k v }, ps)
    | some p => (m, ps.dropLast ++
        [{ p with metadata := { p.metadata with values := p.metadata.values.put k v } }])

def attachLine (target : Metadata × List Posting) (x : TxnLine Node) :
    Except BookError (Metadata × List Posting) :=
  (ofLine x).map (attach target)

end TxnItem

end PlainLedger
