import PlainLedger.Grammar.Flow
import PlainLedger.Ordered

/-!
# Items

An item is a rule with a mark in its right-hand side: what stands before the mark has been read.
The rule numbered after the last one of a grammar is the one that accepts: its right-hand side is
the start symbol alone.
-/

namespace PlainLedger

structure Item where
  rule : Nat
  dot : Nat
  deriving DecidableEq, Repr

namespace Item

def advance (i : Item) : Item := ⟨i.rule, i.dot + 1⟩

instance : LT Item := ⟨fun i j ↦ i.rule < j.rule ∨ (i.rule = j.rule ∧ i.dot < j.dot)⟩

instance : DecidableLT Item := fun i j ↦
  inferInstanceAs (Decidable (i.rule < j.rule ∨ (i.rule = j.rule ∧ i.dot < j.dot)))

end Item

namespace Grammar

variable {α : Type} (g : Grammar α)

/-- The number of the rule that accepts. -/
def acceptRule : Nat := g.rules.length

def rhs (rule : Nat) : List Symbol :=
  match g.rules[rule]? with
  | some r => r.rhs
  | none => [.nonterminal g.start]

def startItem : Item := ⟨g.acceptRule, 0⟩

/-- What is still to be read. -/
def afterDot (i : Item) : List Symbol := (g.rhs i.rule).drop i.dot

def next? (i : Item) : Option Symbol := (g.afterDot i).head?

def rulesOf (n : Nat) : List Nat :=
  g.rules.zipIdx.filterMap fun (r, k) ↦ if r.lhs = n then some k else none

/-- The nonterminals that some rule of `n` begins with. -/
def leading (n : Nat) : List Nat :=
  g.rules.filterMap fun r ↦ if r.lhs = n then r.rhs.head?.bind Symbol.nonterminal? else none

/-- The nonterminals that a text may go on with where the items stand. -/
def predicted (kernel : List Item) : List Nat :=
  settle (fun ns ↦ Ordered.ofList (ns ++ ns.flatMap g.leading)) (g.names.length + 1)
    (Ordered.ofList (kernel.filterMap fun i ↦ (g.next? i).bind Symbol.nonterminal?))

/-- The items of a state: its kernel, and the rules of all predicted nonterminals from their
beginning. -/
def closure (kernel : List Item) : List Item :=
  kernel ++ (g.predicted kernel).flatMap fun n ↦ (g.rulesOf n).map fun k ↦ ⟨k, 0⟩

@[simp] theorem rhs_acceptRule : g.rhs g.acceptRule = [.nonterminal g.start] := by
  simp [rhs, acceptRule]

theorem mem_rulesOf {n k : Nat} : k ∈ g.rulesOf n ↔ ∃ r, g.rules[k]? = some r ∧ r.lhs = n := by
  simp only [rulesOf, List.mem_filterMap, Prod.exists, List.mem_zipIdx_iff_getElem?]
  constructor
  · rintro ⟨r, j, h, hj⟩
    split at hj
    · cases hj
      exact ⟨r, h, by assumption⟩
    · cases hj
  · rintro ⟨r, h, hr⟩
    exact ⟨r, k, h, by simp [hr]⟩

theorem subset_closure (kernel : List Item) : kernel ⊆ g.closure kernel :=
  List.subset_append_left ..

end Grammar

end PlainLedger
