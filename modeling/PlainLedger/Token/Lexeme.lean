import PlainLedger.Text.Blank
import PlainLedger.Token

/-!
# Lexemes

What a line goes on with, from a character that is not blank: the terminal it is read as, what it
carries, and how many characters it takes up. What cannot be read as anything else is an erroneous
lexeme, which carries the reason.
-/

namespace PlainLedger

structure Lexeme where
  kind : Terminal
  payload : Payload
  width : Nat
  deriving DecidableEq, Repr

namespace Lexeme

def ofText (kind : Terminal) (text : List Char) (width : Nat) : Lexeme :=
  ⟨kind, .text (String.ofList text), width⟩

def invalid (text : List Char) : Lexeme :=
  ⟨.lexError, .text ("Invalid token: '" ++ String.ofList text ++ "'"), text.length⟩

/-- What separates the lexemes of a line. -/
def isGap (c : Char) : Bool := c == ' ' || c == '\t'

def keywords : List (String × Terminal) :=
  [("txn", .txn), ("balance", .balance), ("open", .openWord), ("close", .closeWord),
    ("commodity", .commodity), ("pad", .pad), ("event", .event), ("price", .price),
    ("note", .note), ("document", .document), ("pushtag", .pushTag), ("poptag", .popTag),
    ("option", .optionWord), ("include", .includeWord), ("plugin", .plugin)]

/-- The text of a string up to the quote that ends it, the characters it takes up with that quote,
and whether there is one. After a backslash any character stands for itself. -/
def quoted : List Char → List Char × Nat × Bool
  | [] => ([], 0, false)
  | ['\\'] => (['\\'], 1, false)
  | '\\' :: c :: rest =>
    let (text, width, closed) := quoted rest
    (c :: text, width + 2, closed)
  | c :: rest =>
    if c = '"' then ([], 1, true)
    else
      let (text, width, closed) := quoted rest
      (c :: text, width + 1, closed)

/-- A string, after the quote that begins it. -/
def ofQuoted (rest : List Char) : Lexeme :=
  match quoted rest with
  | (text, width, true) => ofText .string text (width + 1)
  | (_, width, false) => ⟨.lexError, .text "unterminated string literal", width + 1⟩

/-- Four digits, two digits and two digits, with twice the same separator, and no digit after
them. -/
def beginsWithDate : List Char → Bool
  | y₁ :: y₂ :: y₃ :: y₄ :: s :: m₁ :: m₂ :: s₂ :: d₁ :: d₂ :: rest =>
    [y₁, y₂, y₃, y₄, m₁, m₂, d₁, d₂].all Char.isDigit && (s == '-' || s == '/') && s₂ == s &&
      !rest.head?.any Char.isDigit
  | _ => false

/-- Digits and points, and commas that are followed by a digit. -/
def digits : List Char → List Char
  | [] => []
  | c :: rest =>
    if c.isDigit || c == '.' || (c == ',' && rest.head?.any Char.isDigit) then c :: digits rest
    else []

/-- A date or a number. -/
def ofDigits (cs : List Char) : Lexeme :=
  if beginsWithDate cs then ofText .date (cs.take 10) 10
  else ofText .number (digits cs) (digits cs).length

def isNameChar (c : Char) : Bool :=
  c.isAlphanum || c == ':' || c == '-' || c == '_' || c == '\x27' || c == '.'

def isCurrencyChar (c : Char) : Bool :=
  c.isUpper || c.isDigit || c == '\x27' || c == '.' || c == '_' || c == '-'

/-- A word that begins with a capital letter: an account if it has a colon. -/
def ofName (cs : List Char) : Lexeme :=
  let word := cs.takeWhile isNameChar
  if word = "TRUE".toList ∨ word = "FALSE".toList then ofText .bool word word.length
  else if word.contains ':' then ofText .account word word.length
  else if word.all isCurrencyChar then ofText .currency word word.length
  else invalid word

def isWordChar (c : Char) : Bool := c.isAlphanum || c == '-' || c == '_'

/-- A word that begins with a small letter: the key of a metadata line if a colon follows, and
otherwise a keyword. -/
def ofWord (cs : List Char) : Lexeme :=
  let word := cs.takeWhile isWordChar
  if cs[word.length]? = some ':' then ofText .key word (word.length + 1)
  else
    match keywords.find? fun k ↦ k.1.toList == word with
    | some (_, kind) => ⟨kind, .none, word.length⟩
    | none => invalid word

def isLabelChar (c : Char) : Bool := isWordChar c || c == '/' || c == '.'

def ofHash (rest : List Char) : Lexeme :=
  let name := rest.takeWhile isLabelChar
  if name.isEmpty then ⟨.hash, .none, 1⟩ else ofText .tag name (name.length + 1)

def ofCaret (rest : List Char) : Lexeme :=
  let name := rest.takeWhile isLabelChar
  ofText .link name (name.length + 1)

/-- Marks that are written twice, and what they are then. -/
def double? : Char → Option Terminal
  | '@' => some .doubleAt
  | '{' => some .doubleLeftBrace
  | '}' => some .doubleRightBrace
  | _ => none

def single? : Char → Option Terminal
  | '@' => some .atSign
  | '{' => some .leftBrace
  | '}' => some .rightBrace
  | '|' => some .pipe
  | '=' => some .equals
  | ',' => some .comma
  | '~' => some .tilde
  | '*' => some .asterisk
  | '/' => some .slash
  | '+' => some .plus
  | '-' => some .minus
  | '(' => some .leftParen
  | ')' => some .rightParen
  | _ => none

def isFlag (c : Char) : Bool := c == '!' || c == '&' || c == '?' || c == '%'

def ofMark (c : Char) (rest : List Char) : Lexeme :=
  match double? c, rest.head? == some c with
  | some kind, true => ⟨kind, .none, 2⟩
  | _, _ =>
    match single? c with
    | some kind => ⟨kind, .none, 1⟩
    | none => if isFlag c then ⟨.flag, .char c, 1⟩ else invalid [c]

/-- The lexeme that begins with `c`, before the rest of the line. -/
def read (c : Char) (rest : List Char) : Lexeme :=
  if c = ';' then ofText .comment (Text.trim rest) (rest.length + 1)
  else if c = '"' then ofQuoted rest
  else if c.isDigit then ofDigits (c :: rest)
  else if c.isUpper then ofName (c :: rest)
  else if c.isLower then ofWord (c :: rest)
  else if c = '#' then ofHash rest
  else if c = '^' then ofCaret rest
  else ofMark c rest

end Lexeme

end PlainLedger
