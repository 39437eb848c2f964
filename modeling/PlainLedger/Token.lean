import PlainLedger.Span
import PlainLedger.Terminal

/-!
# Tokens

What a scanner hands to a parser: a terminal, what was written for it, and where.
-/

namespace PlainLedger

/-- What a token carries besides its kind: nothing, the character of a flag, or a text without
the marks that delimit it. -/
inductive Payload where
  | none
  | char (c : Char)
  | text (s : String)
  deriving DecidableEq, Repr

structure Token where
  kind : Terminal
  payload : Payload
  span : Span
  deriving DecidableEq, Repr

namespace Token

def bare (kind : Terminal) (span : Span) : Token := ⟨kind, .none, span⟩

def ofText (kind : Terminal) (text : String) (span : Span) : Token := ⟨kind, .text text, span⟩

def ofFlag (flag : Char) (span : Span) : Token := ⟨.flag, .char flag, span⟩

/-- What a text without tokens, or a text whose tokens all have been read, ends with. -/
def endOfInput (span : Span) : Token := bare .endOfInput span

@[simp] theorem kind_endOfInput (span : Span) : (endOfInput span).kind = .endOfInput := rfl

@[simp] theorem span_endOfInput (span : Span) : (endOfInput span).span = span := rfl

end Token

end PlainLedger
