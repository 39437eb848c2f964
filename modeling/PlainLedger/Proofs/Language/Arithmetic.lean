import PlainLedger.Proofs.Language.Choice

/-!
# Arithmetic

Expressions as they are written, with the parentheses that the ranks of the operators ask for. The
tables lead along an expression just as it is grouped.
-/

namespace PlainLedger

/-- A token of the kind that stands first. -/
def Forest.read {α : Type} {g : Grammar α} {xs : List Symbol} {u : Terminal} (t : Token)
    (h : t.kind = u) (rest : Forest g xs) : Forest g (.terminal u :: xs) :=
  h ▸ .leaf (.token t) rest

section Read

variable {α : Type} {g : Grammar α} {xs : List Symbol} {u : Terminal} {t : Token}
  {rest : Forest g xs}

@[simp] theorem Forest.leaves_read (h : t.kind = u) :
    (Forest.read t h rest).leaves = .token t :: rest.leaves := by
  subst h
  rfl

@[simp] theorem Forest.first_read (h : t.kind = u) (w : Terminal) :
    (Forest.read t h rest).first w = u := by
  subst h
  rfl

theorem Leads.read {n m n' : Nat} {w : Terminal} {row : Row} (h : t.kind = u)
    (hrow : g.tables.row? n = some row) (hdecide : row.decide u = some (.shift m))
    (hrest : Leads g m rest w n') : Leads g n (.read t h rest) w n' := by
  subst h
  exact .leaf hrow hdecide hrest

end Read

namespace Language

theorem rules_number :
    grammar.rules[26]? = some ⟨Category.numberExpr.index, [.terminal .number], .number, none⟩ :=
  rfl

theorem rules_group : grammar.rules[33]? =
    some ⟨Category.numberExpr.index, [.terminal .leftParen, Category.numberExpr.symbol,
      .terminal .rightParen], .parens, none⟩ :=
  rfl

/-! ## Expressions -/

/-- An expression as it is written. -/
inductive Expr where
  | number (t : Token) (h : t.kind = .number)
  | binary (op : Operator) (lhs : Expr) (t : Token) (h : t.kind = op.terminal) (rhs : Expr)
  | sign (s : Sign) (t : Token) (h : t.kind = s.terminal) (operand : Expr)
  | group (opening : Token) (ho : opening.kind = .leftParen) (inner : Expr) (closing : Token)
      (hc : closing.kind = .rightParen)

namespace Expr

/-- The tokens that the expression is written with. -/
def tokens : Expr → List Token
  | number t _ => [t]
  | binary _ lhs t _ rhs => lhs.tokens ++ t :: rhs.tokens
  | sign _ t _ operand => t :: operand.tokens
  | group opening _ inner closing _ => opening :: inner.tokens ++ [closing]

/-- How tightly an expression holds together. What is no binary operation is never torn apart. -/
def level : Expr → Nat
  | binary op .. => op.level
  | _ => 4

/-- There are parentheses wherever the ranks need them: operators associate to the left, products
bind tighter than sums, and signs bind tighter than both. -/
def Parenthesized : Expr → Prop
  | number .. => True
  | binary op lhs _ _ rhs =>
    op.level ≤ lhs.level ∧ op.level < rhs.level ∧ lhs.Parenthesized ∧ rhs.Parenthesized
  | sign s _ _ operand => (Operation.sign s).level < operand.level ∧ operand.Parenthesized
  | group _ _ inner _ _ => inner.Parenthesized

/-- The derivation tree of the expression. -/
def forest : Expr → Forest grammar [Category.numberExpr.symbol]
  | number t h => .node 26 rules_number (.read t h .nil) .nil
  | binary op lhs t h rhs =>
    .node _ (rules_binary op) (lhs.forest.append (.read t h rhs.forest)) .nil
  | sign s t h operand => .node _ (rules_sign s) (.read t h operand.forest) .nil
  | group opening ho inner closing hc =>
    .node 33 rules_group (.read opening ho (inner.forest.append (.read closing hc .nil))) .nil

theorem leaves_forest (e : Expr) : e.forest.leaves = e.tokens.map Leaf.token := by
  induction e with
  | number t h => simp [forest, tokens, Forest.leaves]
  | binary op lhs t h rhs ihl ihr => simp [forest, tokens, Forest.leaves, ihl, ihr]
  | sign s t h operand ih => simp [forest, tokens, Forest.leaves, ih]
  | group opening ho inner closing hc ih => simp [forest, tokens, Forest.leaves, ih]

theorem level_pos (e : Expr) : 0 < e.level := by
  cases e with
  | binary op => cases op <;> exact Nat.succ_pos _
  | _ => exact Nat.succ_pos _

/-! ## Grouping -/

/-- An operator and an operand are written after an expression. -/
def extend : Expr → (op : Operator) → (t : Token) → t.kind = op.terminal → Expr → Expr
  | binary op' lhs t' h' rhs, op, t, h, operand =>
    if op'.level < op.level then binary op' lhs t' h' (rhs.extend op t h operand)
    else binary op (binary op' lhs t' h' rhs) t h operand
  | e, op, t, h, operand => binary op e t h operand

/-- Two expressions are written with an operator in between. -/
def join : Expr → (op : Operator) → (t : Token) → t.kind = op.terminal → Expr → Expr
  | e, op, t, h, binary op' lhs t' h' rhs => (e.join op t h lhs).join op' t' h' rhs
  | e, op, t, h, operand => e.extend op t h operand

/-- A sign is written before an expression. -/
def signed (s : Sign) (t : Token) (h : t.kind = s.terminal) : Expr → Expr
  | binary op lhs t' h' rhs => (lhs.signed s t h).join op t' h' rhs
  | e => sign s t h e

section Grouping

variable {op : Operator} {t : Token} {h : t.kind = op.terminal} {s : Sign}
  {hs : t.kind = s.terminal} {e operand : Expr}

theorem level_le_three (op : Operator) : op.level ≤ 3 := by cases op <;> decide

theorem level_extend (e : Expr) : (e.extend op t h operand).level = min e.level op.level := by
  have hatom : min 4 op.level = op.level := Nat.min_eq_right (by have := level_le_three op; omega)
  cases e with
  | binary op' lhs t' h' rhs =>
    unfold extend
    split
    · exact (Nat.min_eq_left (Nat.le_of_lt ‹_›)).symm
    · exact (Nat.min_eq_right (Nat.not_lt.mp ‹_›)).symm
  | _ => exact hatom.symm

theorem parenthesized_extend (he : e.Parenthesized) (ho : operand.Parenthesized)
    (hlevel : op.level < operand.level) : (e.extend op t h operand).Parenthesized := by
  have hatom : op.level ≤ 4 := (level_le_three op).trans (Nat.le_succ 3)
  induction e with
  | binary op' lhs t' h' rhs _ ih =>
    obtain ⟨hl, hr, hpl, hpr⟩ := he
    unfold extend
    split
    · refine ⟨hl, ?_, hpl, ih hpr⟩
      rw [level_extend]
      exact Nat.lt_min.mpr ⟨hr, ‹_›⟩
    · exact ⟨Nat.not_lt.mp ‹_›, hlevel, ⟨hl, hr, hpl, hpr⟩, ho⟩
  | _ => exact ⟨hatom, hlevel, he, ho⟩

theorem tokens_extend (e : Expr) :
    (e.extend op t h operand).tokens = e.tokens ++ t :: operand.tokens := by
  induction e with
  | binary op' lhs t' h' rhs _ ih =>
    unfold extend
    split
    · simp [tokens, ih]
    · simp [tokens]
  | _ => rfl

theorem parenthesized_join (he : e.Parenthesized) (ho : operand.Parenthesized) :
    (e.join op t h operand).Parenthesized := by
  induction operand generalizing e op t with
  | binary op' lhs t' h' rhs ihl ihr => exact ihr (ihl he ho.2.2.1) ho.2.2.2
  | _ => exact parenthesized_extend he ho (Nat.lt_succ_of_le (level_le_three op))

theorem tokens_join : (e.join op t h operand).tokens = e.tokens ++ t :: operand.tokens := by
  induction operand generalizing e op t with
  | binary op' lhs t' h' rhs ihl ihr => simp [join, tokens, ihl, ihr]
  | _ => exact tokens_extend e

theorem parenthesized_signed (he : e.Parenthesized) : (e.signed s t hs).Parenthesized := by
  induction e with
  | binary op' lhs t' h' rhs ihl _ => exact parenthesized_join (ihl he.2.2.1) he.2.2.2
  | _ => exact ⟨Nat.lt_succ_self 3, he⟩

theorem tokens_signed : (e.signed s t hs).tokens = t :: e.tokens := by
  induction e with
  | binary op' lhs t' h' rhs ihl _ => simp [signed, tokens, tokens_join, ihl]
  | _ => rfl

end Grouping

/-! ## The way along an expression -/

/-- In the state an expression can begin that the terminal comes after. -/
def Expected (n : Nat) (t : Terminal) : Prop :=
  ∀ k p, grammar.rules[k]? = some p → p.lhs = Category.numberExpr.index →
    grammar.MayFollow n ⟨k, 0⟩ t

theorem expected_of_mayFollow {n : Nat} {i : Item} {t u : Terminal} {xs : List Symbol}
    (h : grammar.MayFollow n i t) (hdot : grammar.afterDot i = Category.numberExpr.symbol :: xs)
    (hu : u ∈ (grammar.flows.ofSymbols xs).apply (.singleton t)) : Expected n u := by
  intro k p hrule hlhs
  refine h.predict ?_ hrule hu
  rw [hdot, hlhs]
  rfl

theorem not_contested_of_terminal {n k : Nat} {t : Terminal}
    (h : ∀ op, t ≠ Operator.terminal op) : ¬grammar.Contested n t k := by
  intro hk
  obtain ⟨-, ⟨op, hop⟩, -⟩ := operation_of_contested hk
  exact h op hop

theorem not_contested_of_rule {n k : Nat} {t : Terminal} (h : ∀ o, k ≠ Operation.rule o) :
    ¬grammar.Contested n t k := by
  intro hk
  obtain ⟨⟨o, ho⟩, -⟩ := operation_of_contested hk
  exact h o ho

/-- Nothing competes where something else is to be read. -/
theorem not_contested_of_has {n k : Nat} {i : Item} {t : Terminal} (h : grammar.Has n i)
    (hdot : grammar.afterDot i ≠ []) (hd : i.dot ≠ 1) : ¬grammar.Contested n t k := by
  intro hk
  obtain ⟨-, -, hall⟩ := operation_of_contested hk
  rcases hall _ h with ⟨-, hnil⟩ | ⟨op, rfl⟩
  · exact hdot hnil
  · exact hd rfl

/-- What is read after an operand decides what may compete with it. -/
theorem eq_rule_of_contested {n k d : Nat} {t : Terminal} {o : Operation}
    (h : grammar.Contested n t o.rule) (hhas : grammar.Has n ⟨k, d⟩) (hd : d ≠ 1) :
    k = o.rule := by
  obtain ⟨-, -, hall⟩ := operation_of_contested h
  rcases hall _ hhas with ⟨hk, -⟩ | ⟨op, hk⟩
  · exact hk
  · cases hk
    exact (hd rfl).elim

/-- An expression is read between the states, where whatever binds tighter than `lo` is kept from
what stands before it, and what comes after it binds no tighter than `hi`. -/
structure Framed (n m : Nat) (t : Terminal) (lo hi : Nat) : Prop where
  expected : Expected n t
  edge : grammar.Edge n Category.numberExpr.symbol m
  left : ∀ u (o : Operation), grammar.Contested m u o.rule → o.level ≤ lo
  right : ∀ op, t = Operator.terminal op → op.level ≤ hi
  hi_le : hi ≤ 3

/-- The tables lead along the expression in every frame that leaves it together. -/
def Followed (e : Expr) : Prop :=
  ∀ {n m lo hi : Nat} {t : Terminal}, Framed n m t lo hi → lo < e.level → hi ≤ e.level →
    Leads grammar n e.forest t m

theorem followed_number (t₀ : Token) (h : t₀.kind = .number) : Followed (.number t₀ h) := by
  intro n m lo hi t hframe _ _
  have hfollow := hframe.expected 26 _ rules_number rfl
  obtain ⟨n₁, row, -, hrow, hdecide, hfollow₁⟩ := hfollow.exists_shift closed rfl (by decide)
    fun k hk ↦ (not_contested_of_terminal (by rintro (_ | _ | _ | _) <;> decide) hk).elim
  obtain ⟨row₁, hrow₁, hdecide₁⟩ := Grammar.exists_reduce closed conflicts_eq rules_number hfollow₁
    (fun _ ↦ not_has_accept rules_number (hfollow₁.has closed))
    fun hk ↦ (not_contested_of_rule (by rintro ((_ | _ | _ | _) | (_ | _)) <;> decide) hk).elim
  exact .node (.read h hrow hdecide (.nil _ _)) hrow₁ hdecide₁ hframe.edge (.nil _ _)

/-- An operand that an operation ends with is framed by the operation. -/
theorem framed_operand {n hi k d : Nat} {t : Terminal} {o : Operation} (hk : k = o.rule)
    (hfollow : grammar.MayFollow n ⟨k, d⟩ t) (hd : d ≠ 0)
    (hdot : grammar.afterDot ⟨k, d⟩ = [Category.numberExpr.symbol])
    (hright : ∀ op, t = Operator.terminal op → op.level ≤ hi) (hthree : hi ≤ 3) :
    ∃ m, Framed n m t o.level hi ∧ grammar.MayFollow m ⟨k, d + 1⟩ t := by
  have hnext : grammar.next? ⟨k, d⟩ = some Category.numberExpr.symbol := by
    rw [Grammar.next?, hdot]
    rfl
  obtain ⟨m, hedge⟩ := Grammar.exists_edge (hfollow.has closed) hnext
  have hfollow' := hfollow.advance hnext hedge
  have hthrough : t ∈ (grammar.flows.ofSymbols []).apply (.singleton t) := by
    rw [FlowTable.ofSymbols_nil, Flow.mem_apply]
    exact Or.inr ⟨rfl, TerminalSet.mem_singleton.mpr rfl⟩
  refine ⟨m, ⟨expected_of_mayFollow hfollow hdot hthrough, hedge, ?_, hright, hthree⟩, hfollow'⟩
  intro u o' hcontested
  have heq := eq_rule_of_contested hcontested (hfollow'.has closed)
    (show d + 1 ≠ 1 by simpa using hd)
  rw [hk] at heq
  rw [← Operation.rule_injective heq]

/-- An operation is completed before an operator that binds no tighter. -/
theorem exists_reduce_operation {n hi : Nat} {t : Terminal} {o : Operation} {p : Rule Production}
    (hrule : grammar.rules[o.rule]? = some p)
    (hfollow : grammar.MayFollow n ⟨o.rule, p.rhs.length⟩ t)
    (hright : ∀ op, t = Operator.terminal op → op.level ≤ hi) (hhi : hi ≤ o.level) :
    ∃ row, grammar.tables.row? n = some row ∧ row.decide t = some (.reduce o.rule) := by
  refine Grammar.exists_reduce closed conflicts_eq hrule hfollow
    (fun _ ↦ not_has_accept hrule (hfollow.has closed)) fun hk ↦ ?_
  obtain ⟨-, ⟨op, rfl⟩, -⟩ := operation_of_contested hk
  rw [prefersReduce?_operation, decide_eq_true]
  exact (hright op rfl).trans hhi

theorem followed_binary {op : Operator} {lhs rhs : Expr} {t₀ : Token}
    (h : t₀.kind = op.terminal) (hlhs : op.level ≤ lhs.level) (hrhs : op.level < rhs.level)
    (hl : Followed lhs) (hr : Followed rhs) : Followed (.binary op lhs t₀ h rhs) := by
  intro n m lo hi t hframe hlo hhi
  have hrule := rules_binary op
  have hdot : ∀ d, grammar.afterDot ⟨(Operation.binary op).rule, d⟩ =
      [Category.numberExpr.symbol, .terminal op.terminal, Category.numberExpr.symbol].drop d := by
    intro d
    rw [Grammar.afterDot, grammar.rhs_of_getElem? hrule]
  have hfollow := hframe.expected _ _ hrule rfl
  -- the left operand is followed by the operator, which does not tear it apart
  have hframe₁ : Framed n m op.terminal lo op.level := by
    refine ⟨expected_of_mayFollow hfollow (hdot 0) (Grammar.mem_apply_terminal _ _ _), hframe.edge,
      hframe.left, fun op' hop ↦ ?_, by cases op <;> decide⟩
    cases op <;> cases op' <;> first | exact le_rfl | cases hop
  have hlhs' := hl hframe₁ (hlo.trans_le hlhs) hlhs
  -- the operator binds tighter than what stands before the left operand
  have hfollow₁ := hfollow.advance (by rw [Grammar.next?, hdot]; rfl) hframe.edge
  obtain ⟨n₂, row, -, hrow, hdecide, hfollow₂⟩ := hfollow₁.exists_shift closed
    (show grammar.next? ⟨_, 1⟩ = some (.terminal op.terminal) by rw [Grammar.next?, hdot]; rfl)
    (by cases op <;> decide) <| by
      intro k hk
      obtain ⟨⟨o, rfl⟩, -⟩ := operation_of_contested hk
      rw [prefersReduce?_operation, decide_eq_false]
      exact Nat.not_le.mpr ((hframe.left _ o hk).trans_lt hlo)
  -- the right operand is all that is left
  obtain ⟨n₃, hframe₃, hfollow₃⟩ := framed_operand rfl hfollow₂ (Nat.succ_ne_zero 1) (hdot 2)
    hframe.right hframe.hi_le
  have hrhs' := hr hframe₃ hrhs (hhi.trans hrhs.le)
  obtain ⟨row₃, hrow₃, hdecide₃⟩ := exists_reduce_operation hrule hfollow₃ hframe.right hhi
  refine .node (.append ?_ (.read h hrow hdecide hrhs')) hrow₃ hdecide₃ hframe.edge (.nil _ _)
  rw [Forest.first_read]
  exact hlhs'

theorem followed_sign {s : Sign} {operand : Expr} {t₀ : Token} (h : t₀.kind = s.terminal)
    (hoperand : (Operation.sign s).level < operand.level) (ho : Followed operand) :
    Followed (.sign s t₀ h operand) := by
  intro n m lo hi t hframe hlo hhi
  have hrule := rules_sign s
  have hdot : ∀ d, grammar.afterDot ⟨(Operation.sign s).rule, d⟩ =
      [.terminal s.terminal, Category.numberExpr.symbol].drop d := by
    intro d
    rw [Grammar.afterDot, grammar.rhs_of_getElem? hrule]
  have hfollow := hframe.expected _ _ hrule rfl
  obtain ⟨n₁, row, -, hrow, hdecide, hfollow₁⟩ := hfollow.exists_shift closed
    (show grammar.next? ⟨_, 0⟩ = some (.terminal s.terminal) by rw [Grammar.next?, hdot]; rfl)
    (by cases s <;> decide) fun k hk ↦
      (not_contested_of_has (hfollow.has closed) (by rw [hdot]; exact List.cons_ne_nil _ _)
        Nat.zero_ne_one hk).elim
  obtain ⟨n₂, hframe₂, hfollow₂⟩ := framed_operand rfl hfollow₁ (Nat.succ_ne_zero 0) (hdot 1)
    hframe.right hframe.hi_le
  have hthree : hi ≤ (Operation.sign s).level := hframe.hi_le
  obtain ⟨row₂, hrow₂, hdecide₂⟩ := exists_reduce_operation hrule hfollow₂ hframe.right hthree
  exact .node (.read h hrow hdecide (ho hframe₂ hoperand (hthree.trans hoperand.le))) hrow₂
    hdecide₂ hframe.edge (.nil _ _)

theorem followed_group {inner : Expr} {opening closing : Token} (ho : opening.kind = .leftParen)
    (hc : closing.kind = .rightParen) (hinner : Followed inner) :
    Followed (.group opening ho inner closing hc) := by
  intro n m lo hi t hframe _ _
  have hfollow := hframe.expected _ _ rules_group rfl
  obtain ⟨n₁, row, -, hrow, hdecide, hfollow₁⟩ := hfollow.exists_shift closed
    (show grammar.next? ⟨33, 0⟩ = some (.terminal .leftParen) from rfl) (by decide)
    fun k hk ↦ (not_contested_of_terminal (by rintro (_ | _ | _ | _) <;> decide) hk).elim
  have hnext : grammar.next? ⟨33, 1⟩ = some Category.numberExpr.symbol := rfl
  obtain ⟨n₂, hedge₂⟩ := Grammar.exists_edge (hfollow₁.has closed) hnext
  have hfollow₂ := hfollow₁.advance hnext hedge₂
  -- within the parentheses nothing else matters
  have hframe₂ : Framed n₁ n₂ .rightParen 0 0 := by
    refine ⟨expected_of_mayFollow hfollow₁ rfl (Grammar.mem_apply_terminal _ _ _), hedge₂,
      fun u o hk ↦ ?_, fun op hop ↦ ?_, Nat.zero_le 3⟩
    · exact (not_contested_of_has (hfollow₂.has closed) (List.cons_ne_nil _ _) (by decide) hk).elim
    · cases op <;> cases hop
  obtain ⟨n₃, row₃, -, hrow₃, hdecide₃, hfollow₃⟩ := hfollow₂.exists_shift closed
    (show grammar.next? ⟨33, 2⟩ = some (.terminal .rightParen) from rfl) (by decide)
    fun k hk ↦ (not_contested_of_terminal (by rintro (_ | _ | _ | _) <;> decide) hk).elim
  obtain ⟨row₄, hrow₄, hdecide₄⟩ := Grammar.exists_reduce closed conflicts_eq rules_group hfollow₃
    (fun _ ↦ not_has_accept rules_group (hfollow₃.has closed))
    fun hk ↦ (not_contested_of_rule (by rintro ((_ | _ | _ | _) | (_ | _)) <;> decide) hk).elim
  refine .node (.read ho hrow hdecide (.append ?_ (.read hc hrow₃ hdecide₃ (.nil _ _)))) hrow₄
    hdecide₄ hframe.edge (.nil _ _)
  rw [Forest.first_read]
  exact hinner hframe₂ inner.level_pos (Nat.zero_le _)

/-- The tables lead along an expression, if what stands before it binds less tightly, and what comes
after it binds no tighter. -/
theorem followed (e : Expr) (he : e.Parenthesized) : Followed e := by
  induction e with
  | number t₀ h => exact followed_number t₀ h
  | binary op lhs t₀ h rhs ihl ihr =>
    exact followed_binary h he.1 he.2.1 (ihl he.2.2.1) (ihr he.2.2.2)
  | sign s t₀ h operand ih => exact followed_sign h he.1 (ih he.2)
  | group opening ho inner closing hc ih => exact followed_group ho hc (ih he)

end Expr

end Language

end PlainLedger
