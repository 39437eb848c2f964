import PlainLedger.Line

/-!
# Diagnostics

Messages about a source file, each tied to one line of it.
-/

namespace PlainLedger

inductive Diagnostic.Kind where
  /-- The text is no token. -/
  | lexical
  /-- The token has no place here. -/
  | grammatical
  /-- The construct is well formed and was refused. -/
  | semantic
  /-- The construct was accepted in a form that is out of use. -/
  | deprecated
  /-- Reading was given up. -/
  | fatal
  deriving DecidableEq, Repr

structure Diagnostic where
  file : String
  line : Line
  kind : Diagnostic.Kind
  message : String
  deriving DecidableEq, Repr

namespace Diagnostic

namespace Kind

def all : List Kind := [lexical, grammatical, semantic, deprecated, fatal]

def name : Kind → String
  | lexical => "lexical"
  | grammatical => "syntax"
  | semantic => "semantic"
  | deprecated => "deprecated"
  | fatal => "fatal"

def ofName? (s : String) : Option Kind := all.find? fun k ↦ k.name == s

/-- A warning about a form out of use is no error. -/
def isError : Kind → Bool
  | deprecated => false
  | _ => true

theorem ofName?_name (k : Kind) : ofName? k.name = some k := by cases k <;> decide

theorem isError_eq_false_iff (k : Kind) : k.isError = false ↔ k = deprecated := by
  cases k <;> decide

end Kind

def isError (d : Diagnostic) : Bool := d.kind.isError

def render (d : Diagnostic) : String := s!"{d.file}:{d.line}: {d.message}"

end Diagnostic

end PlainLedger
