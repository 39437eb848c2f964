import PlainLedger.Automaton.Lookahead

/-!
# Parse tables

What to do in a state when a terminal comes next. Where both reading on and completing a rule are
possible, the ranks of the terminal and of the rule decide, and what they leave undecided is
recorded as a conflict and settled in favour of reading on; of two rules the earlier one is kept.
The most frequent completion of a row needs no terminal: it is taken out of the row and done
whenever the row has nothing else to say.
-/

namespace PlainLedger

inductive Action where
  | shift (state : Nat)
  | reduce (rule : Nat)
  | accept
  deriving DecidableEq, Repr

inductive Conflict.Kind where
  /-- Reading on was preferred to completing the rule. -/
  | shiftOver (rule : Nat)
  /-- Completing one rule was preferred to completing another. -/
  | reduceOver (kept dropped : Nat)
  deriving DecidableEq, Repr

/-- A choice that the ranks do not make. -/
structure Conflict where
  state : Nat
  token : Terminal
  kind : Conflict.Kind
  deriving DecidableEq, Repr

/-- The actions of one state, in table order, and where each completed nonterminal leads. A
terminal without an action is an error, unless the state has a default. -/
structure Row where
  actions : List (Terminal × Action)
  default? : Option Nat
  gotos : List (Nat × Nat)
  deriving DecidableEq, Repr

namespace Row

def action? (r : Row) (t : Terminal) : Option Action := r.actions.lookup t

/-- A row without explicit actions is decided without knowing what comes next. -/
def needsLookahead (r : Row) : Bool := !r.actions.isEmpty

/-- The state that recovery goes on in. -/
def errorShift? (r : Row) : Option Nat :=
  match r.action? .error with
  | some (.shift s) => some s
  | _ => none

/-- The terminals that messages offer in place of an unexpected one. -/
def expected (r : Row) : List Terminal := (r.actions.map Prod.fst).filter (· != .error)

def goto? (r : Row) (n : Nat) : Option Nat := r.gotos.lookup n

end Row

structure Tables where
  rows : List Row
  conflicts : List Conflict
  deriving DecidableEq, Repr

namespace Tables

def row? (t : Tables) (state : Nat) : Option Row := t.rows[state]?

end Tables

namespace Grammar

variable {α : Type} (g : Grammar α)

def ruleRankAt? (rule : Nat) : Option Rank := g.rules[rule]?.bind g.ruleRank?

/-- What the ranks say to a terminal that could be read and a rule that could be completed:
`none` if they leave it open, and otherwise whether the rule is to be completed. -/
def prefersReduce? (t : Terminal) (rule : Nat) : Option Bool :=
  match g.rank? t, g.ruleRankAt? rule with
  | some tr, some rr =>
    if tr.level < rr.level then some true
    else if rr.level < tr.level then some false
    else match tr.side with
      | .left => some true
      | .right => some false
      | .unordered => none
  | _, _ => none

/-- The entry for a terminal that leads to the state `shift?` when read and before which the
`rules` may be completed. -/
def entry (state : Nat) (t : Terminal) (shift? : Option Nat) (rules : List Nat) :
    Option Action × List Conflict :=
  match rules with
  | [] => (shift?.map .shift, [])
  | rule :: others =>
    let dropped := others.map fun r ↦ ⟨state, t, .reduceOver rule r⟩
    match shift? with
    | none => (some (.reduce rule), dropped)
    | some s =>
      match g.prefersReduce? t rule with
      | some true => (some (.reduce rule), dropped)
      | some false => (some (.shift s), dropped)
      | none => (some (.shift s), dropped ++ [⟨state, t, .shiftOver rule⟩])

/-- The items of a state with the terminals that may follow them. -/
def itemLookaheads (table : FlowTable) (s : State) (la : List TerminalSet) :
    List (Item × TerminalSet) :=
  (g.flowClosure table ((s.kernel.zip la).map fun (i, s) ↦ (i, .constant s))).map
    fun (i, f) ↦ (i, f.generated)

/-- The entries of a state for all terminals. Before the end of input, accepting takes precedence
over everything else. -/
def fullRow (table : FlowTable) (state : Nat) (s : State) (la : List TerminalSet) :
    List (Terminal × Action) × List Conflict :=
  let complete := (g.itemLookaheads table s la).filter fun (i, _) ↦ (g.afterDot i).isEmpty
  let entries := Terminal.all.map fun t ↦
    let rules := Ordered.ofList ((complete.filter fun (_, la) ↦ la.contains t).map (·.1.rule))
    if t = .endOfInput && rules.contains g.acceptRule then (t, some Action.accept, [])
    else (t, g.entry state t (s.target? (.terminal t)) (rules.filter (· != g.acceptRule)))
  (entries.filterMap fun (t, a, _) ↦ a.map fun a ↦ (t, a), entries.flatMap fun (_, _, cs) ↦ cs)

end Grammar

namespace Row

def reduced : List (Terminal × Action) → List Nat :=
  List.filterMap fun (_, a) ↦
    match a with
    | .reduce r => some r
    | _ => none

/-- The most frequent completion, of equally frequent ones the earlier rule. -/
def mostFrequent? (rules : List Nat) : Option Nat :=
  (Ordered.ofList rules).foldl (fun best r ↦
    match best with
    | none => some r
    | some b => if rules.count b < rules.count r then some r else some b) none

/-- A state that recovery goes on from has no default, so that it sees what comes next. -/
def defaultOf (actions : List (Terminal × Action)) : Option Nat :=
  match actions.lookup .error with
  | some (.shift _) => none
  | _ => mostFrequent? (reduced actions)

/-- The row of a state from its full entries. -/
def ofEntries (actions : List (Terminal × Action)) (edges : List (Symbol × Nat)) : Row :=
  let default? := defaultOf actions
  { actions := actions.filter fun (_, a) ↦ default?.map Action.reduce != some a
    default?
    gotos := edges.filterMap fun (x, s) ↦ x.nonterminal?.map fun n ↦ (n, s) }

end Row

namespace Grammar

variable {α : Type} (g : Grammar α)

/-- The full rows of the automaton's states, and their conflicts. -/
def fullRows (table : FlowTable) (states : List State) (las : Lookaheads) :
    List (List (Terminal × Action) × List Conflict) :=
  (states.zip las).zipIdx.map fun ((s, la), k) ↦ g.fullRow table k s la

def tables : Tables :=
  let table := g.flows
  let states := g.states
  let rows := g.fullRows table states (g.solveLookaheads table states)
  { rows := (rows.zip states).map fun ((actions, _), s) ↦ Row.ofEntries actions s.edges
    conflicts := rows.flatMap Prod.snd }

end Grammar

end PlainLedger
