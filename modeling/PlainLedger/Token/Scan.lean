import PlainLedger.Token.Lexeme

/-!
# Tokens of a text

Each line ends with a token of its own. A line without text is only that end; a line that is not
indented and begins like a heading is skipped as a whole; an indented line begins with a token for
the indentation, and is left out if it holds nothing but a comment.
-/

namespace PlainLedger

namespace Token

/-- The columns of a line from `first`, counted from zero, up to but not including `stop`. A span
takes up at least one column. -/
def columns (line first stop : Nat) : Span := ⟨line, first + 1, line, max stop (first + 1)⟩

def endOfLine (line length : Nat) : Token := bare .eol (columns line length (length + 1))

/-- The tokens of the rest of a line that goes on at `column`; the first `skip` characters belong
to the token before. -/
def scanLexemes (line : Nat) : Nat → Nat → List Char → List Token
  | _, _, [] => []
  | column, skip + 1, _ :: rest => scanLexemes line (column + 1) skip rest
  | column, 0, c :: rest =>
    if Lexeme.isGap c then scanLexemes line (column + 1) 0 rest
    else
      let x := Lexeme.read c rest
      ⟨x.kind, x.payload, columns line column (column + x.width)⟩ ::
        scanLexemes line (column + 1) (x.width - 1) rest

/-- Headings begin with one of a few marks and a gap. -/
def isHeading : List Char → Bool
  | c :: d :: _ => ['*', ':', '#', '!', '&', '%'].contains c && Lexeme.isGap d
  | _ => false

def scanLine (line : Nat) (cs : List Char) : List Token :=
  let indent := (cs.takeWhile Lexeme.isGap).length
  let body := cs.dropWhile Lexeme.isGap
  let ending := [endOfLine line cs.length]
  if body.isEmpty then ending
  else if 0 < indent then
    if body.head? = some ';' then []
    else bare .indent (columns line 0 indent) :: scanLexemes line indent 0 body ++ ending
  else if isHeading cs then [bare .skipped (columns line 0 cs.length)]
  else scanLexemes line 0 0 cs ++ ending

/-- The pieces of a text between its line feeds; there is always at least one. -/
def lines : List Char → List (List Char)
  | [] => [[]]
  | c :: rest =>
    if c = '\n' then [] :: lines rest
    else
      match lines rest with
      | [] => [[c]]
      | line :: others => (c :: line) :: others

/-- Carriage returns at the end of a line do not count. -/
def stripReturns (cs : List Char) : List Char := Text.dropEndWhile (· == '\r') cs

/-- The last piece is no line if it is empty. -/
def sourceLines (cs : List Char) : List (List Char) :=
  let pieces := (lines cs).map stripReturns
  if pieces.getLast? = some [] then pieces.dropLast else pieces

/-- Lines and columns are counted without a limit. As long as there are fewer than `2 ^ 32 - 1`
lines, and as many characters in a line, all of the numbers fit into 32 bits. -/
def scan (text : String) : List Token :=
  ((sourceLines text.toList).zipIdx 1).flatMap fun (cs, line) ↦ scanLine line cs

end Token

end PlainLedger
