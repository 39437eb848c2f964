import PlainLedger.Automaton.Lookahead
import PlainLedger.Exhaust

/-!
# The automaton from worklists

Each of the loops below works through a list that it adds to as it goes: the items of a state, the
items whose lookaheads have changed, the states. None of them counts its rounds, and none is given
more to look at than what there is in the grammar.
-/

namespace PlainLedger

/-! ## The items of a state -/

structure Scan where
  items : List Item
  /-- The nonterminals whose rules are among the items. -/
  opened : List Nat
  /-- The item that comes next. -/
  place : Nat

namespace Scan

variable {α : Type} (g : Grammar α)

/-- Puts the rules of the nonterminal at the mark behind the items, unless that has been done. -/
def look (s : Scan) (i : Item) : Scan :=
  match g.next? i with
  | some (.nonterminal n) =>
    if n ∈ s.opened then s
    else ⟨s.items ++ (g.rulesOf n).map fun k ↦ ⟨k, 0⟩, n :: s.opened, s.place⟩
  | _ => s

def next (s : Scan) : Option Scan := do
  let i ← s.items[s.place]?
  return { s.look g i with place := s.place + 1 }

end Scan

/-! ## The lookaheads within a state -/

structure Spread where
  items : List (Item × Flow)
  /-- The places of items that have changed, the next one first. -/
  work : List Nat

namespace Spread

/-- Adds to the flow of the item that a rule begins with, or puts that item behind the others. -/
def add (follow : Flow) (s : Spread) (k : Nat) : Spread :=
  match s.items.zipIdx.reverse.find? fun x ↦ x.1.1 == ⟨k, 0⟩ with
  | some ((i, f), p) =>
    if f.join follow = f then s else ⟨s.items.set p (i, f.join follow), p :: s.work⟩
  | none => ⟨s.items ++ [(⟨k, 0⟩, follow)], s.items.length :: s.work⟩

variable {α : Type} (g : Grammar α) (table : FlowTable)

def look (s : Spread) (i : Item) (f : Flow) : Spread :=
  match g.afterDot i with
  | .nonterminal n :: rest => (g.rulesOf n).foldl (add ((table.ofSymbols rest).andThen f)) s
  | _ => s

/-- The item changed last is looked at first. -/
def next (s : Spread) : Part (Option Spread) :=
  match s.work with
  | [] => .some none
  | p :: work => do
    let (i, f) ← Part.ofOption s.items[p]?
    return some (look g table ⟨s.items, work⟩ i f)

end Spread

namespace Grammar

variable {α : Type} (g : Grammar α)

/-- The items of the state with the given kernel. -/
def scan (kernel : List Item) : Part (List Item) :=
  (exhaust (fun s ↦ .some (Scan.next g s)) ⟨kernel, [], 0⟩).map Scan.items

/-- The items of a state with their lookaheads, from those of its kernel. -/
def spread (table : FlowTable) (seeds : List (Item × Flow)) : Part (List (Item × Flow)) :=
  (exhaust (Spread.next g table) ⟨seeds, (List.range seeds.length).reverse⟩).map Spread.items

/-! ## The states -/

/-- Each symbol at the mark of an item, with the kernel of the items advanced over it. -/
def moves (items : List Item) : List (Symbol × List Item) :=
  let moves := items.filterMap fun i ↦ (g.next? i).map fun x ↦ (x, i.advance)
  (Ordered.ofList (moves.map Prod.fst)).map fun x ↦
    (x, Ordered.ofList (moves.filterMap fun m ↦ if m.1 = x then some m.2 else none))

end Grammar

/-- Leaves the first state that has not been left. -/
def Survey.next {α : Type} (g : Grammar α) (s : Survey) : Part (Option Survey) :=
  match s.kernels[s.edges.length]? with
  | none => .some none
  | some kernel => do
    let items ← g.scan kernel
    let (kernels, edges) := link s.kernels (g.moves items)
    return some ⟨kernels, s.edges ++ [edges]⟩

def Grammar.explore {α : Type} (g : Grammar α) : Part Survey :=
  exhaust (Survey.next g) ⟨[[g.startItem]], []⟩

/-! ## The lookaheads of the kernels -/

/-- Where the lookaheads of the kernel item at a place of a state go, and the flow on the way. -/
structure Outflow where
  state : Nat
  place : Nat
  targets : List (Nat × Nat × Flow)

namespace Grammar

variable {α : Type} (g : Grammar α)

/-- The edges of a state that its items go along. -/
def leaving (states : List State) (s : State) (items : List (Item × Flow)) :
    List (Nat × Nat × Flow) :=
  items.filterMap fun (j, f) ↦ do
    let x ← g.next? j
    let t ← s.target? x
    let s' ← states[t]?
    let k ← s'.kernel.findIdx? (· == j.advance)
    return (t, k, f)

/-- The kernel items of all states, with the number of the state and the place in its kernel. -/
def places (states : List State) : List (State × Nat × Item × Nat) :=
  states.zipIdx.flatMap fun (s, n) ↦ s.kernel.zipIdx.map fun (i, k) ↦ (s, n, i, k)

def outflow (table : FlowTable) (states : List State) (s : State) (n : Nat) (i : Item) (k : Nat) :
    Part Outflow := do
  let items ← g.spread table [(i, .through)]
  return ⟨n, k, g.leaving states s items⟩

def trace (table : FlowTable) (states : List State) : Part (List Outflow) :=
  (places states).mapM fun (s, n, i, k) ↦ g.outflow table states s n i k

end Grammar

namespace Lookaheads

def blank (states : List State) : Lookaheads := states.map fun s ↦ s.kernel.map fun _ ↦ .empty

def add (l : Lookaheads) (state place : Nat) (s : TerminalSet) : Lookaheads :=
  l.modify state fun row ↦ row.modify place fun r ↦ r.union s

/-- Adds what comes about on the way, whatever the lookaheads are where it begins. -/
def generate (l : Lookaheads) (o : Outflow) : Lookaheads :=
  o.targets.foldl (fun l (t, k, f) ↦ l.add t k f.generated) l

/-- What comes about within the states, and the end of input after a whole text. -/
def generated (os : List Outflow) (states : List State) : Lookaheads :=
  os.foldl generate ((blank states).add 0 0 (.singleton .endOfInput))

/-- Adds the lookaheads where the ways begin to those where they end, if nothing keeps them. -/
def carry (l : Lookaheads) (o : Outflow) : Lookaheads :=
  let s := l.get o.state o.place
  o.targets.foldl (fun l (t, k, f) ↦ if f.passes then l.add t k s else l) l

def carryAll (os : List Outflow) (l : Lookaheads) : Lookaheads := os.foldl carry l

end Lookaheads

/-- The lookaheads of the kernels: those that come about somewhere, carried along until nothing
changes any more. -/
def Grammar.propagate {α : Type} (g : Grammar α) (table : FlowTable) (states : List State) :
    Part Lookaheads := do
  let os ← g.trace table states
  untilStill (Lookaheads.carryAll os) (Lookaheads.generated os states)

end PlainLedger
