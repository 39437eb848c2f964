import PlainLedger.Machine.Stack

/-!
# Stacks in lanes

A stack laid out in three lists, for the states, the values and the spans of its slots. The deepest
slot comes first in each of them. The lists are enlarged and cut one after the other, and what has
been done to some of them is not undone when something fails.
-/

namespace PlainLedger

/-- What is asked of a stack. -/
inductive Request (V : Type) where
  | push (x : Slot V)
  | pop
  | popN (n : Nat)
  deriving DecidableEq, Repr

/-- What a stack answers. -/
inductive Answer (V : Type) where
  | pushed
  | refused (o : StackOverflow)
  | popped (x? : Option (Slot V))
  | taken (values : List V) (spans : List Span)
  deriving DecidableEq, Repr

namespace Request

variable {V σ : Type}

/-- The answers to the requests, made one after the other, and what is left in the end. -/
def serveAll (serve : Request V → σ → Answer V × σ) : List (Request V) → σ → List (Answer V) × σ
  | [], s => ([], s)
  | q :: qs, s =>
    let (a, s) := serve q s
    let (as, s) := serveAll serve qs s
    (a :: as, s)

end Request

namespace Stack

variable {V : Type}

def serve (q : Request V) (s : Stack V) : Answer V × Stack V :=
  match q with
  | .push x =>
    match s.push x with
    | .ok r => (.pushed, r)
    | .error o => (.refused o, s)
  | .pop =>
    match s.pop? with
    | some (x, r) => (.popped (some x), r)
    | .none => (.popped .none, s)
  | .popN n => (.taken ((s.popN n).1.map Slot.value) ((s.popN n).1.map Slot.span), (s.popN n).2)

def serveAll (qs : List (Request V)) (s : Stack V) : List (Answer V) × Stack V :=
  Request.serveAll serve qs s

end Stack

structure Lanes (V : Type) where
  states : List Nat
  values : List V
  spans : List Span
  capacity : Nat
  ceiling : Nat
  deriving DecidableEq, Repr

namespace Lanes

variable {V : Type}

/-- The largest number that a word holds. -/
def wordMax : Nat := Nat.pow 2 64 - 1

/-- Work on the lanes that may be given up for want of room. -/
abbrev Work (V : Type) := EStateM StackOverflow (Lanes V)

/-- An empty list with room for so many elements. -/
def room (β : Type) (capacity : Nat) : Work V (List β) := do
  if capacity < Stack.addressable then return []
  throw ⟨(← get).ceiling⟩

/-- Moves each lane behind what is in a list that there is room in. Nothing is moved unless there is
room for all three of them. -/
def reserve (capacity : Nat) : Work V Unit := do
  let states ← room Nat capacity
  let values ← room V capacity
  let spans ← room Span capacity
  let states := states ++ (← get).states
  modify fun l ↦ { l with states := [] }
  let values := values ++ (← get).values
  modify fun l ↦ { l with values := [] }
  let spans := spans ++ (← get).spans
  modify fun l ↦ { l with spans := [] }
  modify fun l ↦ { l with states }
  modify fun l ↦ { l with values }
  modify fun l ↦ { l with spans }
  modify fun l ↦ { l with capacity }

def create (initial ceiling : Nat) : EStateM.Result StackOverflow (Lanes V) Unit :=
  let ceiling := max ceiling 1
  (reserve (min (max initial 1) ceiling)).run ⟨[], [], [], 0, ceiling⟩

/-- The room doubles, but to no more than a word can count. -/
def grow : Work V Unit := do
  let l ← get
  if l.ceiling ≤ l.capacity then throw ⟨l.ceiling⟩
  reserve (min (min (2 * l.capacity) wordMax) l.ceiling)

def push (x : Slot V) : Work V Unit := do
  let l ← get
  if l.states.length = l.capacity then grow
  modify fun l ↦ { l with states := l.states ++ [x.state] }
  modify fun l ↦ { l with values := l.values ++ [x.value] }
  modify fun l ↦ { l with spans := l.spans ++ [x.span] }

/-- An empty lane ends the matter, whatever has been taken from the lanes before it. -/
def pop? (l : Lanes V) : Option (Slot V) × Lanes V :=
  match l.states.getLast? with
  | none => (none, l)
  | some state =>
    let l := { l with states := l.states.dropLast }
    match l.values.getLast? with
    | none => (none, l)
    | some value =>
      let l := { l with values := l.values.dropLast }
      match l.spans.getLast? with
      | none => (none, l)
      | some span => (some ⟨state, value, span⟩, { l with spans := l.spans.dropLast })

/-- All lanes are cut at one place, which is told from the states. -/
def popN (n : Nat) (l : Lanes V) : (List V × List Span) × Lanes V :=
  let place := l.states.length - n
  let l := { l with states := l.states.take place }
  ((l.values.drop place, l.spans.drop place),
    { l with values := l.values.take place, spans := l.spans.take place })

def serve (q : Request V) (l : Lanes V) : Answer V × Lanes V :=
  match q with
  | .push x =>
    match (push x).run l with
    | .ok _ l => (.pushed, l)
    | .error o l => (.refused o, l)
  | .pop =>
    let (x?, l) := l.pop?
    (.popped x?, l)
  | .popN n =>
    let ((values, spans), l) := l.popN n
    (.taken values spans, l)

def serveAll (qs : List (Request V)) (l : Lanes V) : List (Answer V) × Lanes V :=
  Request.serveAll serve qs l

end Lanes

end PlainLedger
