/-!
# Terminals of the ledger language

The kinds of token a ledger is written with, in the order that fixes a terminal's column in a
parse table and the order in which messages list alternatives.
-/

namespace PlainLedger

inductive Terminal where
  /-- Past the last token. -/
  | endOfInput
  /-- The symbol that recovery rules are written with; no scanner yields it. -/
  | error
  /-- A piece of text that is no token; the token's text says what is wrong with it. -/
  | lexError
  | indent
  | eol
  | comment
  | skipped
  | pipe
  | doubleAt
  | atSign
  | doubleLeftBrace
  | doubleRightBrace
  | leftBrace
  | rightBrace
  | equals
  | comma
  | tilde
  | hash
  | asterisk
  | slash
  | plus
  | minus
  | leftParen
  | rightParen
  | flag
  | txn
  | balance
  | openWord
  | closeWord
  | commodity
  | pad
  | event
  | price
  | note
  | document
  | pushTag
  | popTag
  | optionWord
  | includeWord
  | plugin
  | bool
  | date
  | account
  | currency
  | string
  | number
  | tag
  | link
  | key
  /-- Carries the rank of unary signs; no scanner yields it. -/
  | negative
  deriving DecidableEq, Repr

namespace Terminal

/-- Every terminal, in table order. -/
def all : List Terminal :=
  [endOfInput, error, lexError, indent, eol, comment, skipped, pipe, doubleAt, atSign,
    doubleLeftBrace, doubleRightBrace, leftBrace, rightBrace, equals, comma, tilde, hash,
    asterisk, slash, plus, minus, leftParen, rightParen, flag, txn, balance, openWord, closeWord,
    commodity, pad, event, price, note, document, pushTag, popTag, optionWord, includeWord,
    plugin, bool, date, account, currency, string, number, tag, link, key, negative]

/-- The number of terminals. -/
def count : Nat := 50

def index (t : Terminal) : Nat := t.ctorIdx

def ofIndex? (i : Nat) : Option Terminal := all[i]?

theorem mem_all (t : Terminal) : t ∈ all := by cases t <;> decide

theorem length_all : all.length = count := rfl

theorem ofIndex?_index (t : Terminal) : ofIndex? t.index = some t := by cases t <;> rfl

theorem index_lt (t : Terminal) : t.index < count := by cases t <;> decide

theorem index_injective {s t : Terminal} (h : s.index = t.index) : s = t :=
  Option.some.inj (by rw [← ofIndex?_index s, h, ofIndex?_index])

/-- The word that messages use for the terminal. -/
def name : Terminal → String
  | endOfInput => "end of file"
  | error => "error"
  | lexError => "LEX_ERROR"
  | indent => "INDENT"
  | eol => "EOL"
  | comment => "COMMENT"
  | skipped => "SKIPPED"
  | pipe => "PIPE"
  | doubleAt => "ATAT"
  | atSign => "AT"
  | doubleLeftBrace => "LCURLCURL"
  | doubleRightBrace => "RCURLCURL"
  | leftBrace => "LCURL"
  | rightBrace => "RCURL"
  | equals => "EQUAL"
  | comma => "COMMA"
  | tilde => "TILDE"
  | hash => "HASH"
  | asterisk => "ASTERISK"
  | slash => "SLASH"
  | plus => "PLUS"
  | minus => "MINUS"
  | leftParen => "LPAREN"
  | rightParen => "RPAREN"
  | flag => "FLAG"
  | txn => "TXN"
  | balance => "BALANCE"
  | openWord => "OPEN"
  | closeWord => "CLOSE"
  | commodity => "COMMODITY"
  | pad => "PAD"
  | event => "EVENT"
  | price => "PRICE"
  | note => "NOTE"
  | document => "DOCUMENT"
  | pushTag => "PUSHTAG"
  | popTag => "POPTAG"
  | optionWord => "OPTION"
  | includeWord => "INCLUDE"
  | plugin => "PLUGIN"
  | bool => "BOOL"
  | date => "DATE"
  | account => "ACCOUNT"
  | currency => "CURRENCY"
  | string => "STRING"
  | number => "NUMBER"
  | tag => "TAG"
  | link => "LINK"
  | key => "KEY"
  | negative => "NEGATIVE"

end Terminal

end PlainLedger
