import PlainLedger.Exhaust
import PlainLedger.Grammar.Flow

/-!
# Flows by sweeping over the rules

The flows of the nonterminals can be found with one table that is written while it is read: a sweep
visits the rules in their order, and each of them sees what those before it have added.
-/

namespace PlainLedger

namespace FlowTable

def add (table : FlowTable) (n : Nat) (f : Flow) : FlowTable := table.modify n fun h ↦ h.join f

/-- Adds to the flow of a rule's left-hand side what its right-hand side gives: first whether it can
be empty, then what it can begin with. -/
def visit {α : Type} (table : FlowTable) (r : Rule α) : FlowTable :=
  let passed := table.add r.lhs ⟨.empty, (table.ofSymbols r.rhs).passes⟩
  passed.add r.lhs ⟨(passed.ofSymbols r.rhs).generated, false⟩

end FlowTable

namespace Draft

variable {α : Type} (d : Draft α)

def sweep (table : FlowTable) : FlowTable := d.rules.foldl FlowTable.visit table

/-- Sweeps until one of them finds nothing to add. -/
def sweeps : Part FlowTable := untilStill d.sweep (List.replicate d.names.length .never)

end Draft

end PlainLedger
