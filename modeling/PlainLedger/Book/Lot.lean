import PlainLedger.Book.Literal
import PlainLedger.Book.Node
import PlainLedger.Language.Value

/-!
# Lot specifications

The clauses of a lot specification come in any order, and each of them at most once.
-/

namespace PlainLedger

open PlainLedger.Language

namespace CostSpec

/-- Sets a cost. A lot that has one has a currency. -/
def withCompound (spec : CostSpec) (c : Compound) : CostSpec :=
  { spec with perUnit? := c.perUnit?, total? := c.total?, currency? := some c.currency }

/-- Adds a clause, unless there is one of its kind already. -/
def addComponent (spec : CostSpec) : LotComponent Node → Except BookError CostSpec
  | .cost n =>
    if spec.currency?.isSome then .error (.duplicateClause .cost)
    else n.toCompound.map spec.withCompound
  | .date text =>
    if spec.date?.isSome then .error (.duplicateClause .date)
    else (Date.read text).map fun d ↦ { spec with date? := some d }
  | .label text =>
    if spec.label?.isSome then .error (.duplicateClause .label)
    else .ok { spec with label? := some text }
  | .merge =>
    if spec.merge then .error (.duplicateClause .merge) else .ok { spec with merge := true }

def ofComponents (components : List (LotComponent Node)) : Except BookError CostSpec :=
  components.foldlM addComponent {}

end CostSpec

end PlainLedger
