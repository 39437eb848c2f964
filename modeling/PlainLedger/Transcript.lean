import PlainLedger.Language.Parse
import PlainLedger.Text.Quoted
import PlainLedger.Text.Search

/-!
# Transcripts

An interpretation that writes down what it is asked. The objects are texts, and a transcript counts
those it has handed out and those that have come back. Requests can be refused by their name or by
a text that occurs in them.
-/

namespace PlainLedger

open PlainLedger.Language

namespace Transcript

/-- An object of a transcript. No two objects have the same number. -/
structure Handle where
  number : Nat
  text : String
  deriving DecidableEq, Repr

/-- A request that was granted. -/
structure Call where
  name : String
  /-- The line of the construct, for requests that have one. -/
  line? : Option Line
  text : String
  deriving DecidableEq, Repr

structure Refusal where
  name : String
  text : String
  deriving DecidableEq, Repr

def Refusal.message (r : Refusal) : String := s!"{r.name} rejected: {r.text}"

end Transcript

open Transcript

structure Transcript where
  refusedNames : List String := []
  refusedTexts : List String := []
  /-- Objects handed out. -/
  acquired : Nat := 0
  /-- The numbers of the objects that have come back. -/
  released : Array Nat := #[]
  calls : Array Call := #[]
  diagnostics : Array Diagnostic := #[]
  refusals : Array Refusal := #[]

namespace Transcript

/-! ## Texts of requests -/

def orNone (text? : Option String) : String := text?.getD "none"

def commaList (texts : List String) : String := String.intercalate ", " texts

def bracketed (texts : List String) : String := "[" ++ commaList texts ++ "]"

def optional (h? : Option Handle) : String := orNone (h?.map Handle.text)

def detailsText (details? : Option (List Handle)) : String :=
  orNone (details?.map fun hs ↦ bracketed (hs.map Handle.text))

def componentText : LotComponent Handle → String
  | .cost h => h.text
  | .date text => text
  | .label text => Text.quote text
  | .merge => "*"

def metaText : MetaValue Handle → String
  | .string s => Text.quote s
  | .account s | .date s | .currency s => s
  | .tag s => "#" ++ s
  | .bool b => if b then "true" else "false"
  | .number h | .amount h => h.text
  | .empty => "none"

def lineText : TxnLine Handle → String
  | .posting h => h.text
  | .detail h => "meta(" ++ h.text ++ ")"

def signOf : Operator → String
  | .add => "+"
  | .subtract => "-"
  | .multiply => "*"
  | .divide => "/"

def priceText (p : PostingParts Handle) : String :=
  match p.price? with
  | none => "none"
  | some h => (if p.totalPrice then "@@ " else "@ ") ++ h.text

def postingText (p : PostingParts Handle) : List String :=
  [p.account, optional p.position?, priceText p,
    "flag=" ++ orNone (p.flag?.map Char.toString), "txn=" ++ p.txnFlag.toString]

def transactionText (date : String) (flag : Char) (f : TxnFields)
    (lines : List (TxnLine Handle)) : List String :=
  [date, flag.toString, bracketed (f.strings.map Text.quote), "tags=" ++ bracketed f.tags,
    "links=" ++ bracketed f.links, "[" ++ String.intercalate "; " (lines.map lineText) ++ "]"]

/-- The parts of a dated entry after its date. -/
def statementText : Statement Handle → List String
  | .openAccount account currencies booking? =>
    [account, bracketed currencies, "booking=" ++ orNone (booking?.map Text.quote)]
  | .closeAccount account => [account]
  | .commodity currency => [currency]
  | .pad account source => [account, source]
  | .balance account amount tolerance? =>
    [account, amount.text, "tolerance=" ++ optional tolerance?]
  | .price currency amount => [currency, amount.text]
  | .event topic description => [Text.quote topic, Text.quote description]
  | .note account comment => [account, Text.quote comment]
  | .document account filename => [account, Text.quote filename]

def applied (name : String) (parts : List String) : String := name ++ "(" ++ commaList parts ++ ")"

/-- The text of an object that is asked for. -/
def objectText (c : Construction Handle) : String :=
  match c with
  | .number text => text
  | .binary op lhs rhs => "(" ++ lhs.text ++ " " ++ signOf op ++ " " ++ rhs.text ++ ")"
  | .negate value => "(-" ++ value.text ++ ")"
  | .amount n currency => n.text ++ " " ++ currency
  | .compoundAmount perUnit? total? currency =>
    optional perUnit? ++ " # " ++ optional total? ++ " " ++ currency
  | .lotSpec components => "\x7b" ++ commaList (components.map componentText) ++ "\x7d"
  | .position _ units lot? =>
    match lot? with
    | some lot => units.text ++ " " ++ lot.text
    | none => units.text
  | .keyValue key value => key ++ ": " ++ metaText value
  | .posting _ parts => applied c.name (postingText parts)
  | .transaction _ date flag fields lines =>
    applied c.name (transactionText date flag fields lines)
  | .statement _ date body details? =>
    applied c.name (date :: statementText body ++ ["meta=" ++ detailsText details?])

/-- The text of a request for an object: that of the object, if it names the request. -/
def constructionText (c : Construction Handle) : String :=
  match c with
  | .posting .. | .transaction .. | .statement .. => objectText c
  | _ => applied c.name [objectText c]

def declarationText (d : Declaration) : String :=
  applied d.name <| match d with
    | .option _ key value => [Text.quote key, Text.quote value]
    | .includeFile _ filename => [Text.quote filename]
    | .plugin _ name config? => [Text.quote name, "config=" ++ orNone (config?.map Text.quote)]
    | .pushTag tag | .popTag tag => [tag]

/-! ## The interpretation -/

def refuses (t : Transcript) (name text : String) : Bool :=
  t.refusedNames.contains name || t.refusedTexts.any fun needle ↦ Text.contains text needle

def refuse (t : Transcript) (r : Refusal) : Transcript :=
  { t with refusals := t.refusals.push r }

def call (t : Transcript) (c : Call) : Transcript := { t with calls := t.calls.push c }

def release (h : Handle) (t : Transcript) : Transcript :=
  { t with released := t.released.push h.number }

def releaseAll (t : Transcript) (hs : List Handle) : Transcript :=
  hs.foldl (fun t h ↦ t.release h) t

/-- Hands out a new object. -/
def acquire (t : Transcript) (text : String) : Handle × Transcript :=
  (⟨t.acquired, text⟩, { t with acquired := t.acquired + 1 })

/-- Objects handed out that have not come back. -/
def live (t : Transcript) : Nat := t.acquired - t.released.size

def construct (c : Construction Handle) (t : Transcript) : Except Refusal Handle × Transcript :=
  let text := objectText c
  if t.refuses c.name text then
    let r := ⟨c.name, text⟩
    (.error r, (t.refuse r).releaseAll c.handles)
  else
    let t := t.call ⟨c.name, c.origin?.map Provenance.line, constructionText c⟩
    let (h, t) := t.acquire text
    (.ok h, t.releaseAll c.handles)

def declare (d : Declaration) (t : Transcript) : Except Refusal Unit × Transcript :=
  let text := declarationText d
  if t.refuses d.name text then
    let r := ⟨d.name, text⟩
    (.error r, t.refuse r)
  else (.ok (), t.call ⟨d.name, d.origin?.map Provenance.line, text⟩)

def report (d : Diagnostic) (t : Transcript) : Transcript :=
  { t.call ⟨"report_error", some d.line, applied "report_error" [d.render]⟩ with
    diagnostics := t.diagnostics.push d }

def finish (entries : List Handle) (t : Transcript) : List String × Transcript :=
  let t := t.call ⟨"finalize", none, applied "finalize" [toString entries.length]⟩
  (entries.map Handle.text, t.releaseAll entries)

def interpretation : Interpretation Handle Refusal Transcript (List String) where
  construct := construct
  declare := declare
  report := report
  release := release
  finish := finish
  message := Refusal.message

end Transcript

end PlainLedger
