import PlainLedger.Span

/-!
# Parse stacks

A stack holds a state, a value and a span in each slot. It begins with room for some slots, the
room doubles when it is used up, and never exceeds a ceiling of at least one slot.
-/

namespace PlainLedger

structure Slot (V : Type) where
  state : Nat
  value : V
  span : Span
  deriving DecidableEq, Repr

/-- The topmost slot comes first. -/
structure Stack (V : Type) where
  slots : List (Slot V)
  capacity : Nat
  ceiling : Nat
  deriving Repr

/-- A stack that cannot take another slot, or not as many slots as it was to begin with. -/
structure StackOverflow where
  depth : Nat
  deriving DecidableEq, Repr

namespace Stack

variable {V : Type}

/-- No store has room for this many slots. -/
def addressable : Nat := Nat.pow 2 59

/-- Room for `capacity` slots in place of the present room. -/
def reserve (s : Stack V) (capacity : Nat) : Except StackOverflow (Stack V) :=
  if capacity < addressable then .ok { s with capacity } else .error ⟨s.ceiling⟩

/-- A stack without room. -/
def none (ceiling : Nat) : Stack V := ⟨[], 0, ceiling⟩

def create (initial ceiling : Nat) : Except StackOverflow (Stack V) :=
  let ceiling := max ceiling 1
  (none ceiling).reserve (min (max initial 1) ceiling)

def length (s : Stack V) : Nat := s.slots.length

def isEmpty (s : Stack V) : Bool := s.slots.isEmpty

def top? (s : Stack V) : Option (Slot V) := s.slots.head?

def grow (s : Stack V) : Except StackOverflow (Stack V) :=
  if s.ceiling ≤ s.capacity then .error ⟨s.ceiling⟩
  else s.reserve (min (2 * s.capacity) s.ceiling)

def push (s : Stack V) (x : Slot V) : Except StackOverflow (Stack V) := do
  let s ← if s.length = s.capacity then s.grow else .ok s
  return { s with slots := x :: s.slots }

def pop? (s : Stack V) : Option (Slot V × Stack V) :=
  match s.slots with
  | [] => .none
  | x :: rest => some (x, { s with slots := rest })

/-- The topmost `n` slots, the deepest of them first, and what is left. -/
def popN (s : Stack V) (n : Nat) : List (Slot V) × Stack V :=
  ((s.slots.take n).reverse, { s with slots := s.slots.drop n })

theorem reserve_eq_ok {s r : Stack V} {n : Nat} (h : s.reserve n = .ok r) :
    r = { s with capacity := n } := by
  unfold reserve at h
  split at h
  · cases h
    rfl
  · cases h

theorem slots_reserve {s r : Stack V} {n : Nat} (h : s.reserve n = .ok r) : r.slots = s.slots := by
  rw [reserve_eq_ok h]

theorem slots_grow {s r : Stack V} (h : s.grow = .ok r) : r.slots = s.slots := by
  unfold grow at h
  split at h
  · cases h
  · exact slots_reserve h

theorem slots_push {s r : Stack V} {x : Slot V} (h : s.push x = .ok r) :
    r.slots = x :: s.slots := by
  unfold push at h
  split at h
  · cases hg : s.grow with
    | error e => simp [hg, bind, Except.bind] at h
    | ok t =>
      simp only [hg, bind, Except.bind, pure, Except.pure, Except.ok.injEq] at h
      rw [← h, ← slots_grow hg]
  · simp only [bind, Except.bind, pure, Except.pure, Except.ok.injEq] at h
    rw [← h]

theorem slots_create {s : Stack V} {i c : Nat} (h : create i c = .ok s) : s.slots = [] :=
  slots_reserve h

end Stack

end PlainLedger
