import PlainLedger.Automaton.State

/-!
# Lookaheads

The terminals that may follow an item's rule once it has been read in full. Within a state, an
item's lookaheads are a flow of those of the kernel items; between states they go along the edges.
The lookaheads of the kernels are the least sets closed under both.
-/

namespace PlainLedger

/-- Predicting `source` predicts `target`, followed by what `flow` makes of what follows
`source`. -/
structure Prediction where
  source : Nat
  target : Nat
  flow : Flow
  deriving DecidableEq, Repr

namespace Grammar

variable {α : Type} (g : Grammar α) (table : FlowTable)

/-- The predictions among the given nonterminals. -/
def predictions (ns : List Nat) : List Prediction :=
  ns.flatMap fun n ↦ (g.rulesOf n).filterMap fun k ↦
    match g.rhs k with
    | .nonterminal m :: rest => some ⟨n, m, table.ofSymbols rest⟩
    | _ => none

/-- What may follow the nonterminals at the marks of the given items. -/
def seedFlow (seeds : List (Item × Flow)) (n : Nat) : Flow :=
  seeds.foldl (fun f s ↦
    match g.afterDot s.1 with
    | .nonterminal m :: rest =>
      if m = n then f.join ((table.ofSymbols rest).andThen s.2) else f
    | _ => f) .never

/-- Adds to what may follow each nonterminal what the predictions give for it. -/
def followStep (ps : List Prediction) (follows : List (Nat × Flow)) : List (Nat × Flow) :=
  follows.map fun (n, f) ↦ (n, ps.foldl (fun f p ↦
    if p.target = n then f.join (p.flow.andThen ((follows.lookup p.source).getD .never)) else f) f)

/-- What may follow each predicted nonterminal. -/
def follows (seeds : List (Item × Flow)) : List (Nat × Flow) :=
  let ns := g.predicted (seeds.map Prod.fst)
  let ps := g.predictions table ns
  settle (followStep ps) (ns.length * (Terminal.count + 1) + 1)
    (ns.map fun n ↦ (n, g.seedFlow table seeds n))

/-- The items of a state with their lookaheads, from those of its kernel. -/
def flowClosure (seeds : List (Item × Flow)) : List (Item × Flow) :=
  seeds ++ (g.follows table seeds).flatMap fun (n, f) ↦ (g.rulesOf n).map fun k ↦ (⟨k, 0⟩, f)

/-- Where the lookaheads of a kernel item go: the state and the place in its kernel of each item
they reach, and the flow on the way. -/
def outflows (states : List State) (s : State) (i : Item) : List (Nat × Nat × Flow) :=
  (g.flowClosure table [(i, .through)]).filterMap fun (j, f) ↦ do
    let x ← g.next? j
    let t ← s.target? x
    let s' ← states[t]?
    let k ← s'.kernel.findIdx? (· == j.advance)
    return (t, k, f)

end Grammar

/-- A flow of lookaheads from the kernel item at a place of a state. -/
structure Inflow where
  state : Nat
  place : Nat
  flow : Flow
  deriving DecidableEq, Repr

namespace Grammar

variable {α : Type} (g : Grammar α) (table : FlowTable)

/-- What flows into the kernel items of each state. -/
def inflows (states : List State) : List (List (List Inflow)) :=
  let ways := states.zipIdx.flatMap fun (s, n) ↦ s.kernel.zipIdx.flatMap fun (i, k) ↦
    (g.outflows table states s i).map fun (t, l, f) ↦ (t, l, Inflow.mk n k f)
  states.zipIdx.map fun (s, t) ↦
    let arriving := ways.filterMap fun (t', w) ↦ if t' = t then some w else none
    s.kernel.zipIdx.map fun (_, l) ↦
      arriving.filterMap fun (l', w) ↦ if l' = l then some w else none

end Grammar

/-- The lookaheads of the kernel items of each state. -/
abbrev Lookaheads := List (List TerminalSet)

namespace Lookaheads

/-- The lookaheads of the kernel item at a place of a state. -/
def get (l : Lookaheads) (state place : Nat) : TerminalSet :=
  (l.getD state []).getD place .empty

/-- The lookaheads that are there before anything has flowed: the end of input follows a whole
text. -/
def initial (states : List State) : Lookaheads :=
  states.zipIdx.map fun (s, n) ↦
    s.kernel.map fun _ ↦ if n = 0 then .singleton .endOfInput else .empty

/-- What a kernel item with the lookaheads `s` has after all of `ws` have flowed into it. -/
def absorb (l : Lookaheads) (s : TerminalSet) (ws : List Inflow) : TerminalSet :=
  ws.foldl (fun s w ↦ s.union (w.flow.apply (get l w.state w.place))) s

/-- Adds to the lookaheads of each kernel item what flows into it. -/
def collect (inflows : List (List (List Inflow))) (l : Lookaheads) : Lookaheads :=
  l.zipWith (List.zipWith (absorb l)) inflows

theorem mem_absorb {l : Lookaheads} {s : TerminalSet} {ws : List Inflow} {t : Terminal} :
    t ∈ absorb l s ws ↔ t ∈ s ∨ ∃ w ∈ ws, t ∈ w.flow.apply (get l w.state w.place) := by
  induction ws generalizing s with
  | nil => simp [absorb]
  | cons w ws ih =>
    rw [show absorb l s (w :: ws) = absorb l (s.union (w.flow.apply (get l w.state w.place))) ws
      from rfl, ih, TerminalSet.mem_union, or_assoc]
    simp

end Lookaheads

namespace Grammar

variable {α : Type} (g : Grammar α)

/-- The lookaheads of the given states. Each repetition adds a terminal to those of some item. -/
def solveLookaheads (table : FlowTable) (states : List State) : Lookaheads :=
  let count := (states.map fun s ↦ s.kernel.length).foldr (· + ·) 0
  settle (Lookaheads.collect (g.inflows table states)) (count * Terminal.count + 1)
    (Lookaheads.initial states)

def lookaheads : Lookaheads := g.solveLookaheads g.flows g.states

end Grammar

end PlainLedger
