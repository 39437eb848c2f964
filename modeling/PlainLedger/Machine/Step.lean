import PlainLedger.Context
import PlainLedger.Machine.Message
import PlainLedger.Machine.Reducer

/-!
# Steps of the machine

A machine reads tokens and completes rules as its tables say, with at most one token read ahead.
Where the tables say nothing it reports the token, takes slots off the stack until it finds a state
that goes on after an error, and goes on from there. For some tokens after that it keeps quiet
about further errors, and drops tokens that it cannot go on with.

A machine keeps a record of what it did, in order.
-/

namespace PlainLedger

structure Engine (α : Type) where
  grammar : Grammar α
  tables : Tables
  context : Context
  options : Options

namespace Engine

variable {α : Type} (e : Engine α)

def row? (state : Nat) : Option Row := e.tables.row? state

def errorShift? (state : Nat) : Option Nat := (e.row? state).bind Row.errorShift?

def expected (state : Nat) : List Terminal := ((e.row? state).map Row.expected).getD []

end Engine

/-- What a machine does that can be seen from outside. -/
inductive Event (V : Type) where
  /-- The source was asked for a token; `none` says that it has no more. -/
  | pull (token? : Option Token)
  | report (d : Diagnostic)
  | shift (token : Token) (value : V)
  | reduce (r : Reduction V) (verdict : Verdict V)
  | discard (token : Token)
  | pop (slot : Slot V)
  /-- Recovery goes on in the state, after text that takes up the span. -/
  | resume (state : Nat) (span : Span)

/-- What a machine holds between steps. -/
structure Config (V σ : Type) where
  stack : Stack V
  /-- The token read ahead. -/
  ahead? : Option Token
  /-- Tokens not yet read. -/
  input : List Token
  /-- The source has said that it has no more tokens. -/
  exhausted : Bool
  /-- Where the last token read stands. -/
  lastSpan : Span
  /-- Tokens to be shifted before an unexpected token is reported again. -/
  quiet : Nat
  memory : σ
  log : Array (Event V)

/-- A step leads to another configuration or ends the run. -/
inductive Step (V σ : Type) where
  | running (c : Config V σ)
  | accepted (v : V) (c : Config V σ)
  | aborted (cause : Abort) (c : Config V σ)

namespace Config

variable {α V σ : Type}

def record (c : Config V σ) (ev : Event V) : Config V σ := { c with log := c.log.push ev }

def report (r : Reducer α V σ) (d : Diagnostic) (c : Config V σ) : Config V σ :=
  { c with memory := r.report d c.memory, log := c.log.push (.report d) }

def release (r : Reducer α V σ) (v : V) (c : Config V σ) : Config V σ :=
  { c with memory := r.release v c.memory }

/-- Where the token read ahead stands, or the last one read. -/
def currentSpan (c : Config V σ) : Span := (c.ahead?.map Token.span).getD c.lastSpan

variable (e : Engine α) (r : Reducer α V σ)

def currentLine (c : Config V σ) : Line := e.context.lineOf c.currentSpan

def diagnostic (kind : Diagnostic.Kind) (line : Line) (message : String) : Diagnostic :=
  ⟨e.context.file, line, kind, message⟩

/-- What a token that is no token says about itself. -/
def lexicalMessage (t : Token) : String :=
  match t.payload with
  | .text s => s
  | _ => "invalid token"

/-- Reads a token. After the last one comes the end of input, as often as it is asked for. -/
def read (c : Config V σ) : Token × Config V σ :=
  if c.exhausted then (.endOfInput c.lastSpan.endPoint, c)
  else
    match c.input with
    | [] => (.endOfInput c.lastSpan.endPoint, { c with exhausted := true }.record (.pull none))
    | t :: rest =>
      let c := { c with input := rest }.record (.pull (some t))
      let c :=
        if t.kind = .lexError then
          c.report r (diagnostic e .lexical (e.context.lineOf t.span) (lexicalMessage t))
        else c
      (t, { c with lastSpan := t.span })

/-- The token read ahead; reads one if there is none. -/
def peek (c : Config V σ) : Token × Config V σ :=
  match c.ahead? with
  | some t => (t, c)
  | none =>
    let (t, c) := c.read e r
    (t, { c with ahead? := some t })

def push (state : Nat) (v : V) (span : Span) (c : Config V σ) : Step V σ :=
  match c.stack.push ⟨state, v, span⟩ with
  | .ok stack => .running { c with stack }
  | .error overflow => .aborted (.stackOverflow overflow.depth) (c.release r v)

def shift (state : Nat) (c : Config V σ) : Step V σ :=
  match c.ahead? with
  | none => .aborted (.defect .shiftWithoutToken) c
  | some t =>
    let out := r.ofToken t c.memory
    let c := { c with ahead? := none, quiet := c.quiet - 1, memory := out.2 }
    (c.record (.shift t out.1)).push r state out.1 t.span

/-- The slots above the topmost one that goes on after an error, in the order in which they are
taken off, and the slots that are left. The bottom of the stack stays. -/
def unwind : List (Slot V) → List (Slot V) × List (Slot V)
  | [] => ([], [])
  | [x] => ([], [x])
  | x :: rest =>
    if (e.errorShift? x.state).isSome then ([], x :: rest)
    else
      let (popped, left) := unwind rest
      (x :: popped, left)

/-- Skips text that begins at `start` or at the deepest slot taken off, up to the token read
ahead. -/
def recover (start : Span) (c : Config V σ) : Step V σ :=
  let (popped, left) := unwind e c.stack.slots
  let c := popped.foldl (fun c x ↦ (c.release r x.value).record (.pop x))
    { c with stack := { c.stack with slots := left }, quiet := e.options.recoveryShifts }
  match left with
  | [] => .aborted (.defect .emptyStack) c
  | x :: _ =>
    match e.errorShift? x.state with
    | none => .aborted (.unrecoverable e.context.file (c.currentLine e)) c
    | some state =>
      let first := (popped.getLast?.map Slot.span).getD start
      let span := Span.cover first c.currentSpan
      (c.record (.resume state span)).push r state r.blank span

/-- The span of a completed rule, from the spans of its symbols and the slots below them. -/
def reductionSpan (spans : List Span) (below : List (Slot V)) : Span :=
  match spans.head?, spans.getLast? with
  | some first, some last => Span.cover first last
  | _, _ => ((below.head?.map Slot.span).getD Span.start).endPoint

/-- Goes on with the value of a completed rule. -/
def goto (lhs rule : Nat) (v : V) (span : Span) (c : Config V σ) : Step V σ :=
  match c.stack.top? with
  | none => .aborted (.defect .emptyStack) (c.release r v)
  | some x =>
    match (e.row? x.state).bind fun row ↦ row.goto? lhs with
    | none => .aborted (.defect (.noGoto x.state rule)) (c.release r v)
    | some state => c.push r state v span

def reduce (rule : Nat) (c : Config V σ) : Step V σ :=
  match e.grammar.rules[rule]? with
  | none => .aborted (.defect (.unknownRule rule)) c
  | some production =>
    let (taken, stack) := c.stack.popN production.rhs.length
    let spans := taken.map Slot.span
    let span := reductionSpan spans stack.slots
    let reduction := ⟨rule, span, taken.map Slot.value, spans, stack.slots⟩
    let (verdict, memory) := r.reduce production.action reduction c.memory
    let c := { c with stack, memory }.record (.reduce reduction verdict)
    match verdict with
    | .value v => c.goto e r production.lhs rule v span
    | .rejected message =>
      (c.report r (diagnostic e .semantic (e.context.lineOf span) message)).recover e r span
    | .fatal cause => .aborted cause c

/-- Reports the token read ahead, unless the machine is quiet or the token silent. -/
def complain (state : Nat) (t : Token) (c : Config V σ) : Config V σ :=
  if c.quiet = 0 && !t.kind.isSilent then
    let message := unexpectedMessage t.kind (e.expected state) e.options.maxExpectedTokens
    c.report r (diagnostic e .grammatical (e.context.lineOf t.span) message)
  else c

/-- There is no action for the token read ahead. If nothing was shifted since the last recovery,
that token is dropped. -/
def fail (state : Nat) (c : Config V σ) : Step V σ :=
  let (t, c) := c.peek e r
  let c := c.complain e r state t
  if c.quiet = e.options.recoveryShifts then
    if t.kind = .endOfInput then
      .aborted (.unrecoverable e.context.file (c.currentLine e)) c
    else ({ c with ahead? := none }.record (.discard t)).recover e r t.span
  else c.recover e r t.span

def accept (c : Config V σ) : Step V σ :=
  match c.stack.pop? with
  | none => .aborted (.defect .emptyStack) c
  | some (x, stack) => .accepted x.value { c with stack }

/-- A row with explicit actions looks at the token ahead; where it has none for it, and in any
other row, the default decides. -/
def step (c : Config V σ) : Step V σ :=
  match c.stack.top? with
  | none => .aborted (.defect .emptyStack) c
  | some x =>
    let row := (e.row? x.state).getD ⟨[], none, []⟩
    let (action?, c) :=
      if row.needsLookahead then
        let (t, c) := c.peek e r
        (row.action? t.kind, c)
      else (none, c)
    match action?.or (row.default?.map Action.reduce) with
    | some (.shift state) => c.shift r state
    | some (.reduce rule) => c.reduce e r rule
    | some .accept => c.accept
    | none => c.fail e r x.state

end Config

end PlainLedger
