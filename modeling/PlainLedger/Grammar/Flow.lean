import PlainLedger.Grammar.Basic
import PlainLedger.Settle
import PlainLedger.Terminal.Set

/-!
# Flows of terminals

What can stand first in a text made from symbols, as a function of what can follow the text: some
terminals are generated by the text itself, and if the text may be empty, what follows passes
through it. Flows compose like the texts they describe, and the flows of the nonterminals are the
least solution of one inequality for each rule.
-/

namespace PlainLedger

structure Flow where
  generated : TerminalSet
  /-- What follows may come first as well. -/
  passes : Bool
  deriving DecidableEq, Repr

namespace Flow

/-- The empty text: only what follows. -/
def through : Flow := ⟨.empty, true⟩

/-- No text at all. -/
def never : Flow := ⟨.empty, false⟩

def ofTerminal (t : Terminal) : Flow := ⟨.singleton t, false⟩

def constant (s : TerminalSet) : Flow := ⟨s, false⟩

/-- A text followed by another. -/
def andThen (f g : Flow) : Flow :=
  if f.passes then ⟨f.generated.union g.generated, g.passes⟩ else f

/-- Either of two texts. -/
def join (f g : Flow) : Flow := ⟨f.generated.union g.generated, f.passes || g.passes⟩

def apply (f : Flow) (follow : TerminalSet) : TerminalSet :=
  if f.passes then f.generated.union follow else f.generated

theorem mem_apply {f : Flow} {s : TerminalSet} {t : Terminal} :
    t ∈ f.apply s ↔ t ∈ f.generated ∨ (f.passes = true ∧ t ∈ s) := by
  unfold apply
  split <;> simp_all

theorem mem_generated_join {f g : Flow} {t : Terminal} :
    t ∈ (f.join g).generated ↔ t ∈ f.generated ∨ t ∈ g.generated := by
  simp [join]

theorem mem_generated_andThen {f g : Flow} {t : Terminal} :
    t ∈ (f.andThen g).generated ↔ t ∈ f.generated ∨ (f.passes = true ∧ t ∈ g.generated) := by
  unfold andThen
  split <;> simp_all

@[simp] theorem passes_andThen (f g : Flow) : (f.andThen g).passes = (f.passes && g.passes) := by
  unfold andThen
  split <;> simp_all

@[simp] theorem passes_join (f g : Flow) : (f.join g).passes = (f.passes || g.passes) := rfl

theorem mem_apply_andThen {f g : Flow} {s : TerminalSet} {t : Terminal} :
    t ∈ (f.andThen g).apply s ↔ t ∈ f.apply (g.apply s) := by
  simp only [mem_apply, mem_generated_andThen, passes_andThen, Bool.and_eq_true]
  grind

end Flow

/-- The flows of the nonterminals, by number. -/
abbrev FlowTable := List Flow

namespace FlowTable

def ofSymbol (table : FlowTable) : Symbol → Flow
  | .terminal t => .ofTerminal t
  | .nonterminal n => table.getD n .never

def ofSymbols (table : FlowTable) (xs : List Symbol) : Flow :=
  xs.foldr (fun x f ↦ (table.ofSymbol x).andThen f) .through

@[simp] theorem ofSymbols_nil (table : FlowTable) : table.ofSymbols [] = .through := rfl

@[simp] theorem ofSymbols_cons (table : FlowTable) (x : Symbol) (xs : List Symbol) :
    table.ofSymbols (x :: xs) = (table.ofSymbol x).andThen (table.ofSymbols xs) := rfl

end FlowTable

namespace Draft

variable {α : Type} (d : Draft α)

/-- Adds to the flow of each nonterminal what its rules give under the present flows. -/
def improve (table : FlowTable) : FlowTable :=
  table.mapIdx fun n f ↦
    (d.rules.filter fun r ↦ r.lhs == n).foldl (fun f r ↦ f.join (table.ofSymbols r.rhs)) f

/-- Each repetition adds a terminal, or emptiness, to the flow of some nonterminal. -/
def flows : FlowTable :=
  let n := d.names.length
  settle d.improve (n * (Terminal.count + 1) + 1) (List.replicate n .never)

@[simp] theorem length_improve (table : FlowTable) : (d.improve table).length = table.length := by
  simp [improve]

@[simp] theorem length_flows : d.flows.length = d.names.length :=
  settle_induction (P := fun t : FlowTable ↦ t.length = d.names.length)
    (fun t h ↦ by simpa using h) _ (by simp)

end Draft

end PlainLedger
