import PlainLedger.Proofs.Machine.Membership
import PlainLedger.Proofs.Language.Tables

/-!
# Choices

In some states a rule can be completed before a terminal that can be read as well. Then the rule is
an operation and the terminal an operator, and the ranks decide between them.
-/

namespace PlainLedger.Language

/-! ## Operations -/

/-- What can stand before an operand. -/
inductive Sign where
  | minus
  | plus
  deriving DecidableEq, Repr

/-- What an expression does with its operands. -/
inductive Operation where
  | binary (op : Operator)
  | sign (s : Sign)
  deriving DecidableEq, Repr

def Operator.terminal : Operator → Terminal
  | add => .plus
  | subtract => .minus
  | multiply => .asterisk
  | divide => .slash

def Operator.production : Operator → Production
  | add => .add
  | subtract => .subtract
  | multiply => .multiply
  | divide => .divide

/-- Products bind tighter than sums. -/
def Operator.level : Operator → Nat
  | add | subtract => 1
  | multiply | divide => 2

def Operator.all : List Operator := [.add, .subtract, .multiply, .divide]

def Sign.terminal : Sign → Terminal
  | minus => .minus
  | plus => .plus

def Sign.production : Sign → Production
  | minus => .negate
  | plus => .unaryPlus

namespace Operation

/-- Signs bind tighter than all operators. -/
def level : Operation → Nat
  | binary op => op.level
  | sign _ => 3

/-- The number of the rule. -/
def rule : Operation → Nat
  | binary .add => 27
  | binary .subtract => 28
  | binary .multiply => 29
  | binary .divide => 30
  | sign .minus => 31
  | sign .plus => 32

def all : List Operation := Operator.all.map binary ++ [sign .minus, sign .plus]

end Operation

theorem Operator.mem_all (op : Operator) : op ∈ all := by cases op <;> decide

theorem Operation.rule_injective {o o' : Operation} (h : o.rule = o'.rule) : o = o' := by
  rcases o with (_ | _ | _ | _) | (_ | _) <;> rcases o' with (_ | _ | _ | _) | (_ | _) <;>
    first | rfl | cases h

theorem rules_binary (op : Operator) : grammar.rules[(Operation.binary op).rule]? =
    some ⟨Category.numberExpr.index, [Category.numberExpr.symbol, .terminal op.terminal,
      Category.numberExpr.symbol], op.production, none⟩ := by
  cases op <;> rfl

theorem rules_sign (s : Sign) : grammar.rules[(Operation.sign s).rule]? =
    some ⟨Category.numberExpr.index, [.terminal s.terminal, Category.numberExpr.symbol],
      s.production, some .negative⟩ := by
  cases s <;> rfl

/-- The ranks prefer the operation that binds tighter, and of two that bind alike the left one. -/
theorem prefersReduce?_operation (op : Operator) (o : Operation) :
    grammar.prefersReduce? op.terminal o.rule = some (decide (op.level ≤ o.level)) := by
  rcases o with (_ | _ | _ | _) | (_ | _) <;> cases op <;> decide

/-! ## Choices -/

/-- A rule that can be completed before a terminal that can be read is an operation, the terminal is
an operator, and whatever else the state holds goes on with an operator. -/
def ChoosesArithmetic (s : State) (la : List TerminalSet) : Prop :=
  ∀ i ∈ grammar.itemLookaheads listedFlows s la, grammar.afterDot i.1 = [] →
    i.1.rule ≠ grammar.acceptRule → ∀ e ∈ s.edges, ∀ t ∈ e.1.terminal?, t ∈ i.2 →
      (∃ o ∈ Operation.all, i.1.rule = o.rule) ∧ (∃ op ∈ Operator.all, t = op.terminal) ∧
        ∀ j ∈ grammar.closure s.kernel,
          j = i.1 ∨ ∃ op ∈ Operator.all, j = ⟨(Operation.binary op).rule, 1⟩

instance (s : State) (la : List TerminalSet) : Decidable (ChoosesArithmetic s la) := by
  unfold ChoosesArithmetic
  infer_instance

theorem choosesArithmetic {s : State} {la : List TerminalSet}
    (h : (s, la) ∈ listedStates.zip listedLookaheads) : ChoosesArithmetic s la := by
  have hall : ∀ s ∈ listedStates.zip listedLookaheads, ChoosesArithmetic s.1 s.2 := by
    decide +kernel
  exact hall (s, la) h

theorem conflicts_eq : grammar.tables.conflicts = [] := congrArg Tables.conflicts tables_eq

section Contested

variable {n m k : Nat} {t : Terminal}

/-- Only operations compete with operators, and nothing else is there where they do. -/
theorem operation_of_contested (h : grammar.Contested n t k) :
    (∃ o, k = Operation.rule o) ∧ (∃ op, t = Operator.terminal op) ∧
      ∀ j, grammar.Has n j → (j.rule = k ∧ grammar.afterDot j = []) ∨
        ∃ op, j = ⟨(Operation.binary op).rule, 1⟩ := by
  obtain ⟨hne, ⟨m, s, hs, htarget⟩, s', la, hs', hla, hk⟩ := h
  cases Option.some.inj (hs.symm.trans hs')
  rw [flows_eq] at hk
  obtain ⟨d, ts, hitem, hdone, ht⟩ := Grammar.mem_completable.mp hk
  obtain ⟨l₁, l₂, hedges, -⟩ := List.lookup_eq_some_iff.mp htarget
  have hedge : (.terminal t, m) ∈ s.edges := by
    rw [hedges]
    exact List.mem_append_right _ (List.mem_cons_self ..)
  have hmem : (s, la) ∈ listedStates.zip listedLookaheads := by
    rw [← states_eq, ← lookaheads_eq]
    exact List.mem_of_getElem? (List.getElem?_zip_eq_some.mpr ⟨hs, hla⟩)
  obtain ⟨⟨o, -, ho⟩, ⟨op, -, hop⟩, hall⟩ :=
    choosesArithmetic hmem _ hitem hdone hne _ hedge t rfl ht
  refine ⟨⟨o, ho⟩, ⟨op, hop⟩, ?_⟩
  rintro j ⟨S, hS, hj⟩
  cases Option.some.inj (hs.symm.trans hS)
  rcases hall j hj with rfl | ⟨op, -, rfl⟩
  · exact Or.inl ⟨rfl, hdone⟩
  · exact Or.inr ⟨op, rfl⟩

end Contested

/-! ## The end of the text -/

/-- Where the whole text has been read, there is nothing else. -/
theorem not_has_accept {n k d : Nat} {p : Rule Production} (hrule : grammar.rules[k]? = some p)
    (h : grammar.Has n ⟨k, d⟩) : ¬grammar.Has n ⟨grammar.acceptRule, 1⟩ := by
  have hall : ∀ s ∈ listedStates, ⟨grammar.acceptRule, 1⟩ ∈ s.kernel →
      grammar.closure s.kernel = [⟨grammar.acceptRule, 1⟩] := by decide +kernel
  intro haccept
  obtain ⟨s, hs, hmem⟩ := haccept.kernelHas (by decide)
  obtain ⟨s', hs', hk⟩ := h
  cases Option.some.inj (hs.symm.trans hs')
  rw [states_eq] at hs
  rw [hall s (List.mem_of_getElem? hs) hmem, List.mem_singleton] at hk
  have hlt : k < grammar.rules.length := (List.getElem?_eq_some_iff.mp hrule).1
  cases hk
  exact Nat.lt_irrefl _ hlt

theorem closed : grammar.Closed := by decide

end PlainLedger.Language
