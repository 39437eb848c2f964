import PlainLedger.Book.Build
import PlainLedger.Language.Parse

/-!
# The book

What is remembered while a ledger is read: the settings made so far, the tags that are pushed, and
the messages. Nodes are made without a change to it; only settings and messages change it. When the
ledger is handed over, the book is as empty as a new one.
-/

namespace PlainLedger

open PlainLedger.Language

structure Book where
  /-- The file that messages about the whole are tied to. -/
  file : String
  /-- Tags pushed and not popped. -/
  activeTags : TextSet := .empty
  options : TextMap String := .empty
  optionHistory : TextMap (List String) := .empty
  includes : List String := []
  plugins : List Plugin := []
  errors : List Diagnostic := []
  deriving DecidableEq, Repr

namespace Book

/-- The value that an option had goes into its history. -/
def setOption (b : Book) (key value : String) : Book :=
  let history :=
    match b.options.get? key with
    | none => b.optionHistory
    | some earlier =>
      b.optionHistory.put key ((b.optionHistory.get? key).getD [] ++ [earlier])
  { b with options := b.options.put key value, optionHistory := history }

def pushTag (b : Book) (tag : String) : Book :=
  { b with activeTags := b.activeTags.insert tag }

def popTag (b : Book) (tag : String) : Book :=
  { b with activeTags := b.activeTags.erase tag }

def construct (c : Construction Node) (b : Book) : Except BookError Node × Book :=
  (Node.build b.activeTags c, b)

def declare (d : Declaration) (b : Book) : Except BookError Unit × Book :=
  match d with
  | .option _ key value => (.ok (), b.setOption key value)
  | .includeFile _ filename => (.ok (), { b with includes := b.includes ++ [filename] })
  | .plugin _ name config? => (.ok (), { b with plugins := b.plugins ++ [⟨name, config?⟩] })
  | .pushTag tag => (.ok (), b.pushTag tag)
  | .popTag tag =>
    if b.activeTags.contains tag then (.ok (), b.popTag tag) else (.error (.absentTag tag), b)

def report (d : Diagnostic) (b : Book) : Book := { b with errors := b.errors ++ [d] }

/-- A message about the ledger as a whole. -/
def complaint (b : Book) (e : BookError) : Diagnostic := ⟨b.file, .clamp 0, .semantic, e.message⟩

/-- The nodes that are entries. -/
def entriesOf (nodes : List Node) : List Entry := nodes.filterMap fun n ↦ n.toEntry.toOption

/-- What is wrong with the nodes that are none. -/
def strays (nodes : List Node) : List BookError :=
  nodes.filterMap fun n ↦
    match n.toEntry with
    | .ok _ => none
    | .error e => some e

/-- Hands the ledger over. A tag that is still pushed is an error. -/
def finish (nodes : List Node) (b : Book) : Ledger × Book :=
  let errors :=
    b.errors ++ (strays nodes).map b.complaint ++
      b.activeTags.toList.map fun tag ↦ b.complaint (.unbalancedTag tag)
  ({ entries := entriesOf nodes, errors, options := b.options, optionHistory := b.optionHistory,
     includes := b.includes, plugins := b.plugins },
    { file := b.file })

def interpretation : Interpretation Node BookError Book Ledger where
  construct := construct
  declare := declare
  report := report
  release _ b := b
  finish := finish
  message := BookError.message

theorem declare_of_error {d : Declaration} {b : Book} {e : BookError}
    (h : (b.declare d).1 = .error e) : (b.declare d).2 = b := by
  cases d <;> simp only [declare] at h ⊢ <;> try contradiction
  split at h
  · contradiction
  · rename_i hn
    simp [hn]

@[simp] theorem finish_snd (nodes : List Node) (b : Book) :
    (b.finish nodes).2 = { file := b.file } := rfl

end Book

namespace Ledger

/-- Reads a ledger from tokens. What was refused is told in its errors. -/
def read (ctx : Context) (options : Options) (tokens : List Token) : Parsed Ledger :=
  (parse Book.interpretation ctx options tokens { file := ctx.file }).1

end Ledger

end PlainLedger
