import PlainLedger.Language.Plan
import PlainLedger.Machine.Run

/-!
# Reading a ledger

A parse runs the machine on the language's grammar and carries out the plan of each completed rule
under an interpretation. What the interpretation refuses is reported and skipped. If the text is
read to its end, the entries that were made are handed over in the order in which they were made.
-/

namespace PlainLedger.Language

/-- What an interpretation remembers, and the messages so far. -/
structure Session (σ : Type) where
  state : σ
  diagnostics : Array Diagnostic

variable {H ε σ ω : Type}

/-- The value of a token is what it carries. -/
def Value.ofToken (t : Token) : Value H :=
  match t.payload with
  | .none => .nothing
  | .char c => .char c
  | .text s => .text s

namespace Session

def report (i : Interpretation H ε σ ω) (d : Diagnostic) (s : Session σ) : Session σ :=
  ⟨i.report d s.state, s.diagnostics.push d⟩

def releaseAll (i : Interpretation H ε σ ω) (hs : List H) (s : Session σ) : Session σ :=
  { s with state := hs.foldl (fun state h ↦ i.release h state) s.state }

/-- The value of an object that was asked for, unless it was refused. -/
def outcome (i : Interpretation H ε σ ω) {β : Type} (value : β → Value H) :
    Except ε β → Verdict (Value H)
  | .ok b => .value (value b)
  | .error e => .rejected (i.message e)

/-- Carries out a plan for a phrase that begins at `origin`. -/
def perform (i : Interpretation H ε σ ω) (origin : Provenance) (s : Session σ) :
    Plan H → Verdict (Value H) × Session σ
  | .keep v => (.value v, s)
  | .warn message v => (.value v, s.report i ⟨origin.file, origin.line, .deprecated, message⟩)
  | .construct c =>
    let (result, state) := i.construct c s.state
    (outcome i .handle result, { s with state })
  | .measure c tolerance? =>
    let (result, state) := i.construct c s.state
    let s := { s with state }
    match result with
    | .ok h => (.value (.pair h tolerance?), s)
    | .error e => (.rejected (i.message e), s.releaseAll i tolerance?.toList)
  | .declare d =>
    let (result, state) := i.declare d s.state
    (outcome i (fun _ ↦ .nothing) result, { s with state })

end Session

/-- The flag of the transaction that a posting is written under: below the posting stand the lines
before it, the end of the head line, the description, and then the flag. -/
def txnFlag? (p : Production) (below : List (Slot (Value H))) : Option Char :=
  if p.isPosting then
    match (below[3]? : Option (Slot (Value H))) with
    | some ⟨_, .char c, _⟩ => some c
    | _ => none
  else none

def reducer (i : Interpretation H ε σ ω) (ctx : Context) :
    Reducer Production (Value H) (Session σ) where
  blank := .nothing
  ofToken t s := (Value.ofToken t, s)
  reduce p r s :=
    let origin := ctx.provenance r.span
    match (p.plan origin (txnFlag? p r.below)).run { pending := r.values } with
    | .error misfit =>
      (.fatal (.defect (.inReducer (misfit.message r.rule))),
        s.releaseAll i (r.values.flatMap Value.handles))
    | .ok (plan, args) =>
      (s.releaseAll i ((args.unused ++ args.pending).flatMap Value.handles)).perform i origin plan
  report d s := s.report i d
  release v s := s.releaseAll i v.handles

def engine (ctx : Context) (options : Options) : Engine Production :=
  ⟨grammar, tables, ctx, options⟩

/-- A parse takes a bounded number of steps for each token; this is far more than that. -/
def stepBudget (tokens : Nat) : Nat := 0x100000000 * (tokens + 1)

/-- Runs the machine on tokens. -/
def run (i : Interpretation H ε σ ω) (ctx : Context) (options : Options) (tokens : List Token)
    (state : σ) : Outcome (Value H) × Config (Value H) (Session σ) :=
  (engine ctx options).run (reducer i ctx) (stepBudget tokens.length) tokens ⟨state, #[]⟩

inductive Parsed (ω : Type) where
  | complete (whole : ω) (diagnostics : List Diagnostic)
  | failed (cause : Abort) (diagnostics : List Diagnostic)
  | unfinished

/-- A parse that found fault with the text. -/
def hasErrors (ds : List Diagnostic) : Bool := ds.any Diagnostic.isError

/-- What the end of a run comes to: entries that were read to the end of the text are handed
over. -/
def conclude (i : Interpretation H ε σ ω) (ctx : Context) :
    Outcome (Value H) × Config (Value H) (Session σ) → Parsed ω × σ
  | (.accepted (.list entries), c) =>
    let (whole, state) := i.finish entries c.memory.state
    (.complete whole c.memory.diagnostics.toList, state)
  | (.accepted v, c) =>
    let cause := Abort.defect
      (.inReducer ("start symbol reduced to " ++ v.shape ++ " instead of an entry list"))
    let s := (c.memory.releaseAll i v.handles).report i ⟨ctx.file, 0, .fatal, cause.message⟩
    (.failed cause s.diagnostics.toList, s.state)
  | (.aborted cause, c) => (.failed cause c.memory.diagnostics.toList, c.memory.state)
  | (.unfinished, c) => (.unfinished, c.memory.state)

def parse (i : Interpretation H ε σ ω) (ctx : Context) (options : Options) (tokens : List Token)
    (state : σ) : Parsed ω × σ :=
  conclude i ctx (run i ctx options tokens state)

end PlainLedger.Language
