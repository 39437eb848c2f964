import PlainLedger.Automaton.Item

/-!
# States of the automaton

A state is the set of items that a text read so far may stand at, given by its kernel. States are
numbered in the order in which they are found: each state in turn is left by every symbol that can
be read in it, terminals first, and a kernel that was not seen before gets the next number.
-/

namespace PlainLedger

structure State where
  kernel : List Item
  /-- The state reached by each symbol that can be read, in symbol order. -/
  edges : List (Symbol × Nat)
  deriving DecidableEq, Repr

namespace State

def target? (s : State) (x : Symbol) : Option Nat := s.edges.lookup x

end State

namespace Grammar

variable {α : Type} (g : Grammar α)

/-- Each symbol that can be read where the items stand, with the kernel it leads to. -/
def successors (kernel : List Item) : List (Symbol × List Item) :=
  let moves := (g.closure kernel).filterMap fun i ↦ (g.next? i).map fun x ↦ (x, i.advance)
  (Ordered.ofList (moves.map Prod.fst)).map fun x ↦
    (x, Ordered.ofList (moves.filterMap fun m ↦ if m.1 = x then some m.2 else none))

end Grammar

/-- The kernels found so far, in order, and the edges of those that have been left. -/
structure Survey where
  kernels : List (List Item)
  edges : List (List (Symbol × Nat))

namespace Survey

/-- Gives each kernel its number, and new ones the next free number. -/
def link : List (List Item) → List (Symbol × List Item) →
    List (List Item) × List (Symbol × Nat)
  | kernels, [] => (kernels, [])
  | kernels, (x, kernel) :: rest =>
    match kernels.findIdx? (· == kernel) with
    | some k =>
      let (kernels', edges) := link kernels rest
      (kernels', (x, k) :: edges)
    | none =>
      let (kernels', edges) := link (kernels ++ [kernel]) rest
      (kernels', (x, kernels.length) :: edges)

/-- Leaves one state after the other until there is none left. -/
def complete {α : Type} (g : Grammar α) : Nat → Survey → Survey
  | 0, s => s
  | budget + 1, s =>
    match s.kernels[s.edges.length]? with
    | none => s
    | some kernel =>
      let (kernels, edges) := link s.kernels (g.successors kernel)
      complete g budget ⟨kernels, s.edges ++ [edges]⟩

end Survey

namespace Grammar

variable {α : Type} (g : Grammar α)

/-- The number of different items. -/
def itemCount : Nat := (g.rules.map fun r ↦ r.rhs.length + 1).foldr (· + ·) 0 + 2

/-- There are at most as many states as sets of items. -/
def survey : Survey :=
  Survey.complete g (Nat.pow 2 g.itemCount) ⟨[[g.startItem]], []⟩

def states : List State := (g.survey.kernels.zip g.survey.edges).map fun s ↦ ⟨s.1, s.2⟩

end Grammar

end PlainLedger
