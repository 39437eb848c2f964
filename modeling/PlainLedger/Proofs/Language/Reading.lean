import PlainLedger.Proofs.Language.Arithmetic

/-!
# Readings

A reading of a text is a derivation tree of it in which expressions are grouped as the ranks have
it. Each sentence of the language has a reading, and the tables lead along it.
-/

namespace PlainLedger.Language

/-- A derivation tree for each of the symbols, expressions being grouped as the ranks have it. -/
inductive Reading : List Symbol → Type where
  | nil : Reading []
  | token (t : Token) {u : Terminal} (h : t.kind = u) {xs : List Symbol} (rest : Reading xs) :
      Reading (.terminal u :: xs)
  | phrase (k : Nat) {p : Rule Production} (hrule : grammar.rules[k]? = some p)
      (hp : p.lhs ≠ Category.numberExpr.index) (children : Reading p.rhs) {xs : List Symbol}
      (rest : Reading xs) : Reading (.nonterminal p.lhs :: xs)
  | expr (e : Expr) (he : e.Parenthesized) {xs : List Symbol} (rest : Reading xs) :
      Reading (Category.numberExpr.symbol :: xs)

namespace Reading

/-- The text that is read. -/
def tokens : {xs : List Symbol} → Reading xs → List Token
  | _, nil => []
  | _, token t _ rest => t :: rest.tokens
  | _, phrase _ _ _ children rest => children.tokens ++ rest.tokens
  | _, expr e _ rest => e.tokens ++ rest.tokens

def forest : {xs : List Symbol} → Reading xs → Forest grammar xs
  | _, nil => .nil
  | _, token t h rest => .read t h rest.forest
  | _, phrase k hrule _ children rest => .node k hrule children.forest rest.forest
  | _, expr e _ rest => e.forest.append rest.forest

variable {xs : List Symbol}

theorem leaves_forest (T : Reading xs) : T.forest.leaves = T.tokens.map Leaf.token := by
  induction T with
  | nil => rfl
  | token t h rest ih => simp [forest, tokens, ih]
  | phrase k hrule hp children rest ihc ihr => simp [forest, tokens, Forest.leaves, ihc, ihr]
  | expr e he rest ih =>
    rw [forest, Forest.leaves_append, e.leaves_forest, ih, tokens, List.map_append]

section Append

variable {ys : List Symbol}

def append : {xs : List Symbol} → Reading xs → Reading ys → Reading (xs ++ ys)
  | _, nil, T => T
  | _, token t h rest, T => token t h (rest.append T)
  | _, phrase k hrule hp children rest, T => phrase k hrule hp children (rest.append T)
  | _, expr e he rest, T => expr e he (rest.append T)

@[simp] theorem tokens_append (T : Reading xs) (T' : Reading ys) :
    (T.append T').tokens = T.tokens ++ T'.tokens := by
  induction T with
  | nil => rfl
  | token t h rest ih => simp [append, tokens, ih]
  | phrase k hrule hp children rest _ ih => simp [append, tokens, ih]
  | expr e he rest ih => simp [append, tokens, ih]

/-- What is read can be cut between its symbols. -/
theorem exists_append (xs : List Symbol) (T : Reading (xs ++ ys)) :
    ∃ (T₁ : Reading xs) (T₂ : Reading ys), T = T₁.append T₂ := by
  induction xs with
  | nil => exact ⟨.nil, T, rfl⟩
  | cons x xs ih =>
    cases T with
    | token t h rest =>
      obtain ⟨T₁, T₂, rfl⟩ := ih rest
      exact ⟨.token t h T₁, T₂, rfl⟩
    | phrase k hrule hp children rest =>
      obtain ⟨T₁, T₂, rfl⟩ := ih rest
      exact ⟨.phrase k hrule hp children T₁, T₂, rfl⟩
    | expr e he rest =>
      obtain ⟨T₁, T₂, rfl⟩ := ih rest
      exact ⟨.expr e he T₁, T₂, rfl⟩

end Append

/-! ## The way along a reading -/

/-- The item is not one of an expression. -/
def Plain (i : Item) : Prop :=
  ∀ p, grammar.rules[i.rule]? = some p → p.lhs ≠ Category.numberExpr.index

theorem not_plain_operation {o : Operation} {d : Nat} : ¬Plain ⟨o.rule, d⟩ := by
  intro h
  cases o with
  | binary op => exact h _ (rules_binary op) rfl
  | sign s => exact h _ (rules_sign s) rfl

/-- Only an item of an expression competes with an operator. -/
theorem not_contested_of_plain {n k : Nat} {i : Item} {t : Terminal} (hi : Plain i)
    (hhas : grammar.Has n i) (hk : i.rule = k ∨ grammar.afterDot i ≠ []) :
    ¬grammar.Contested n t k := by
  intro hcontested
  obtain ⟨⟨o, rfl⟩, -, hall⟩ := operation_of_contested hcontested
  have hrule : i.rule ≠ o.rule := by
    intro hrule
    obtain ⟨rule, dot⟩ := i
    subst hrule
    exact not_plain_operation hi
  rcases hall i hhas with ⟨hrule', -⟩ | ⟨op, rfl⟩
  · exact hrule hrule'
  · exact not_plain_operation hi

/-- Outside of expressions, no operator comes after a number. -/
theorem terminal_of_afterDot {i : Item} (hi : Plain i) {x : Symbol}
    (hdot : grammar.afterDot i = Category.numberExpr.symbol :: x :: xs) :
    ∃ u, x = .terminal u ∧ ∀ op, u ≠ Operator.terminal op := by
  have hall : ∀ p ∈ grammar.rules, p.lhs ≠ Category.numberExpr.index → ∀ d < p.rhs.length,
      p.rhs[d]? = some Category.numberExpr.symbol → ∀ x ∈ p.rhs[d + 1]?,
        ∃ u ∈ x.terminal?, ∀ op ∈ Operator.all, u ≠ op.terminal := by decide +kernel
  cases hrule : grammar.rules[i.rule]? with
  | none =>
    have hlength := congrArg List.length hdot
    rw [Grammar.afterDot, Grammar.rhs, hrule] at hlength
    simp at hlength
    omega
  | some p =>
    rw [Grammar.afterDot, grammar.rhs_of_getElem? hrule] at hdot
    have hd : p.rhs[i.dot]? = some Category.numberExpr.symbol := by
      rw [← Nat.add_zero i.dot, ← List.getElem?_drop, hdot]
      rfl
    have hx : p.rhs[i.dot + 1]? = some x := by
      rw [← List.getElem?_drop, hdot]
      rfl
    obtain ⟨u, hu, hop⟩ := hall p (List.mem_of_getElem? hrule) (hi p hrule) i.dot
      (List.getElem?_eq_some_iff.mp hd).1 hd x hx
    refine ⟨u, ?_, fun op ↦ hop op op.mem_all⟩
    cases x <;> cases hu
    rfl

theorem rule_ne_acceptRule {i : Item}
    (hdot : grammar.afterDot i = Category.numberExpr.symbol :: xs) :
    i.rule ≠ grammar.acceptRule := by
  intro heq
  have hmem : Category.numberExpr.symbol ∈ [Symbol.nonterminal grammar.start] := by
    rw [← grammar.rhs_acceptRule, ← heq]
    apply List.mem_of_mem_drop (i := i.dot)
    rw [← Grammar.afterDot, hdot]
    exact List.mem_cons_self ..
  exact absurd hmem (by decide)

/-- What comes after a number outside of expressions is no operator. -/
theorem first_ne_operator {n m : Nat} {i : Item} {t : Terminal} (rest : Reading xs) (hi : Plain i)
    (hfollow : grammar.MayFollow n i t)
    (hdot : grammar.afterDot i = Category.numberExpr.symbol :: xs)
    (hedge : grammar.Edge n Category.numberExpr.symbol m) (op : Operator) :
    rest.forest.first t ≠ op.terminal := by
  cases rest with
  | nil =>
    -- the operator could be read as well, with the number on its left
    rintro rfl
    have hnext : grammar.next? i = some Category.numberExpr.symbol := by
      rw [Grammar.next?, hdot]
      rfl
    have hfollow' := hfollow.advance hnext hedge
    have hdone := Grammar.afterDot_advance hdot
    have hoperand : grammar.MayFollow n ⟨(Operation.binary op).rule, 0⟩ op.terminal := by
      refine Expr.expected_of_mayFollow hfollow hdot ?_ _ _ (rules_binary op) rfl
      rw [FlowTable.ofSymbols_nil, Flow.mem_apply]
      exact Or.inr ⟨rfl, TerminalSet.mem_singleton.mpr rfl⟩
    have hbegun := hoperand.advance (by
      rw [Grammar.next?, Grammar.afterDot, grammar.rhs_of_getElem? (rules_binary op)]
      rfl) hedge
    obtain ⟨m', hedge'⟩ := Grammar.exists_edge (hbegun.has closed)
      (show grammar.next? ⟨(Operation.binary op).rule, 1⟩ = some (.terminal op.terminal) by
        rw [Grammar.next?, Grammar.afterDot, grammar.rhs_of_getElem? (rules_binary op)]
        rfl)
    exact not_contested_of_plain (i := i.advance) hi (hfollow'.has closed) (Or.inl rfl)
      (hfollow'.contested closed hdone (rule_ne_acceptRule hdot) hedge')
  | token t₀ h rest =>
    obtain ⟨u, hu, hop⟩ := terminal_of_afterDot hi hdot
    cases hu
    rw [forest, Forest.first_read]
    exact hop op
  | phrase k hrule hp children rest =>
    obtain ⟨u, hu, -⟩ := terminal_of_afterDot hi hdot
    cases hu
  | expr e he rest =>
    obtain ⟨u, hu, -⟩ := terminal_of_afterDot hi hdot
    cases hu

/-- Outside of expressions, nothing tears an expression apart. -/
theorem exists_framed {n : Nat} {i : Item} {t : Terminal} (rest : Reading xs) (hi : Plain i)
    (hfollow : grammar.MayFollow n i t)
    (hdot : grammar.afterDot i = Category.numberExpr.symbol :: xs) :
    ∃ m, Expr.Framed n m (rest.forest.first t) 0 0 := by
  have hnext : grammar.next? i = some Category.numberExpr.symbol := by
    rw [Grammar.next?, hdot, List.head?_cons]
  obtain ⟨m, hedge⟩ := Grammar.exists_edge (hfollow.has closed) hnext
  refine ⟨m, ?_, hedge, fun u o hk ↦ ?_, fun op hop ↦ ?_, Nat.zero_le 3⟩
  · exact Expr.expected_of_mayFollow hfollow hdot
      (rest.forest.first_mem_apply closed (TerminalSet.mem_singleton.mpr rfl))
  · obtain ⟨-, -, hall⟩ := operation_of_contested hk
    obtain ⟨rule, dot⟩ := i
    rcases hall _ ((hfollow.advance hnext hedge).has closed) with ⟨hrule, -⟩ | ⟨op, hrule⟩
    · cases hrule
      exact (not_plain_operation hi).elim
    · cases hrule
      exact (not_plain_operation hi).elim
  · exact (first_ne_operator rest hi hfollow hdot hedge op hop).elim

/-- The tables lead along every reading. -/
theorem exists_leads (T : Reading xs) {n : Nat} {i : Item} {t : Terminal} (hi : Plain i)
    (hfollow : grammar.MayFollow n i t) (hdot : grammar.afterDot i = xs) :
    ∃ n', Leads grammar n T.forest t n' ∧
      grammar.MayFollow n' ⟨i.rule, i.dot + xs.length⟩ t := by
  induction T generalizing n i t with
  | nil => exact ⟨n, .nil n t, hfollow⟩
  | @token t₀ u h xs rest ih =>
    have hnext : grammar.next? i = some (.terminal u) := by
      rw [Grammar.next?, hdot, List.head?_cons]
    obtain ⟨m, hedge⟩ := Grammar.exists_edge (hfollow.has closed) hnext
    have hend : u ≠ .endOfInput := by
      rintro rfl
      exact not_edge_end hedge
    obtain ⟨row, hrow, hdecide⟩ := Grammar.exists_shift hedge hend fun k hk ↦
      (not_contested_of_plain hi (hfollow.has closed)
        (Or.inr (by rw [hdot]; exact List.cons_ne_nil _ _)) hk).elim
    obtain ⟨n', hleads, hfollow'⟩ := ih (i := i.advance) hi (hfollow.advance hnext hedge)
      (Grammar.afterDot_advance hdot)
    refine ⟨n', .read h hrow hdecide hleads, ?_⟩
    rw [Item.advance, Nat.add_right_comm] at hfollow'
    exact hfollow'
  | @phrase k p hrule hp children xs rest ihc ihr =>
    have hnext : grammar.next? i = some (.nonterminal p.lhs) := by
      rw [Grammar.next?, hdot, List.head?_cons]
    have hfirst : rest.forest.first t ∈ (grammar.flows.ofSymbols xs).apply (.singleton t) :=
      rest.forest.first_mem_apply closed (TerminalSet.mem_singleton.mpr rfl)
    have hplain : Plain ⟨k, 0⟩ := by
      intro p' hrule'
      cases Option.some.inj (hrule.symm.trans hrule')
      exact hp
    have hbegin : grammar.afterDot ⟨k, 0⟩ = p.rhs := by
      rw [Grammar.afterDot, List.drop_zero, grammar.rhs_of_getElem? hrule]
    obtain ⟨n₁, hleads₁, hfollow₁⟩ := ihc hplain (hfollow.predict hdot hrule hfirst) hbegin
    rw [Nat.zero_add] at hfollow₁
    obtain ⟨row₁, hrow₁, hdecide₁⟩ := Grammar.exists_reduce closed conflicts_eq hrule hfollow₁
      (fun _ ↦ not_has_accept hrule (hfollow₁.has closed)) fun hk ↦
        (not_contested_of_plain (i := ⟨k, p.rhs.length⟩) hplain (hfollow₁.has closed)
          (Or.inl rfl) hk).elim
    obtain ⟨m, hedge⟩ := Grammar.exists_edge (hfollow.has closed) hnext
    obtain ⟨n', hleads, hfollow'⟩ := ihr (i := i.advance) hi (hfollow.advance hnext hedge)
      (Grammar.afterDot_advance hdot)
    refine ⟨n', .node hleads₁ hrow₁ hdecide₁ hedge hleads, ?_⟩
    rw [Item.advance, Nat.add_right_comm] at hfollow'
    exact hfollow'
  | @expr e he xs rest ih =>
    obtain ⟨m, hframe⟩ := exists_framed rest hi hfollow hdot
    have hnext : grammar.next? i = some Category.numberExpr.symbol := by
      rw [Grammar.next?, hdot, List.head?_cons]
    obtain ⟨n', hleads, hfollow'⟩ := ih (i := i.advance) hi (hfollow.advance hnext hframe.edge)
      (Grammar.afterDot_advance hdot)
    refine ⟨n', .append (e.followed he hframe e.level_pos (Nat.zero_le _)) hleads, ?_⟩
    rw [Item.advance, Nat.add_right_comm] at hfollow'
    exact hfollow'

/-- The tables lead along every reading of a ledger, and accept it. -/
theorem exists_leads_start (T : Reading [Category.file.symbol]) :
    ∃ n row, Leads grammar 0 T.forest .endOfInput n ∧ grammar.tables.row? n = some row ∧
      row.decide .endOfInput = some .accept := by
  have hplain : Plain grammar.startItem := by
    intro p hp
    cases hp
  obtain ⟨n, hleads, hfollow⟩ := T.exists_leads hplain .start rfl
  obtain ⟨row, hrow, haccept⟩ := Grammar.exists_accept closed hfollow
  exact ⟨n, row, hleads, hrow, haccept⟩

/-! ## Sentences have readings -/

section Cases

variable {ys : List Symbol}

theorem tokens_of_nil (T : Reading ys) (hys : ys = []) : T.tokens = [] := by
  cases T with
  | nil => rfl
  | _ => cases hys

theorem exists_token (T : Reading ys) {u : Terminal} (hys : ys = .terminal u :: xs) :
    ∃ (t : Token) (rest : Reading xs), t.kind = u ∧ T.tokens = t :: rest.tokens := by
  cases T with
  | token t h rest =>
    cases hys
    exact ⟨t, rest, h, rfl⟩
  | _ => cases hys

theorem exists_expr (T : Reading ys) (hys : ys = Category.numberExpr.symbol :: xs) :
    ∃ (e : Expr) (rest : Reading xs), e.Parenthesized ∧ T.tokens = e.tokens ++ rest.tokens := by
  cases T with
  | nil => cases hys
  | token t h rest => cases hys
  | phrase k hrule hp children rest =>
    injection hys with hlhs
    injection hlhs with hlhs
    exact (hp hlhs).elim
  | expr e he rest =>
    cases hys
    exact ⟨e, rest, he, rfl⟩

end Cases

/-- The rules of expressions. -/
theorem rule_of_numberExpr {k : Nat} {p : Rule Production} (hrule : grammar.rules[k]? = some p)
    (hlhs : p.lhs = Category.numberExpr.index) : k = 26 ∨ k = 33 ∨ ∃ o, k = Operation.rule o := by
  have hall : ∀ q ∈ grammar.rules.zipIdx, q.1.lhs = Category.numberExpr.index →
      q.2 = 26 ∨ q.2 = 33 ∨ ∃ o ∈ Operation.all, q.2 = o.rule := by decide +kernel
  rcases hall (p, k) (List.mem_zipIdx_iff_getElem?.mpr hrule) hlhs with h | h | ⟨o, -, h⟩
  · exact Or.inl h
  · exact Or.inr (Or.inl h)
  · exact Or.inr (Or.inr ⟨o, h⟩)

/-- What is derived by a rule of expressions is an expression, in whatever way it is grouped. -/
theorem exists_expr_of_children {k : Nat} {p : Rule Production}
    (hrule : grammar.rules[k]? = some p) (hlhs : p.lhs = Category.numberExpr.index)
    (children : Reading p.rhs) : ∃ e : Expr, e.Parenthesized ∧ e.tokens = children.tokens := by
  rcases rule_of_numberExpr hrule hlhs with rfl | rfl | ⟨o, rfl⟩
  · cases Option.some.inj (hrule.symm.trans rules_number)
    obtain ⟨t, rest, h, htokens⟩ := children.exists_token rfl
    refine ⟨.number t h, trivial, ?_⟩
    rw [htokens, rest.tokens_of_nil rfl]
    rfl
  · cases Option.some.inj (hrule.symm.trans rules_group)
    obtain ⟨t, rest, h, htokens⟩ := children.exists_token rfl
    obtain ⟨e, rest₁, he, htokens₁⟩ := rest.exists_expr rfl
    obtain ⟨t₂, rest₂, h₂, htokens₂⟩ := rest₁.exists_token rfl
    refine ⟨.group t h e t₂ h₂, he, ?_⟩
    rw [htokens, htokens₁, htokens₂, rest₂.tokens_of_nil rfl]
    rfl
  · cases o with
    | binary op =>
      cases Option.some.inj (hrule.symm.trans (rules_binary op))
      obtain ⟨lhs, rest, hl, htokens⟩ := children.exists_expr rfl
      obtain ⟨t, rest₁, h, htokens₁⟩ := rest.exists_token rfl
      obtain ⟨rhs, rest₂, hr, htokens₂⟩ := rest₁.exists_expr rfl
      refine ⟨lhs.join op t h rhs, Expr.parenthesized_join hl hr, ?_⟩
      rw [Expr.tokens_join, htokens, htokens₁, htokens₂, rest₂.tokens_of_nil rfl, List.append_nil]
    | sign s =>
      cases Option.some.inj (hrule.symm.trans (rules_sign s))
      obtain ⟨t, rest, h, htokens⟩ := children.exists_token rfl
      obtain ⟨e, rest₁, he, htokens₁⟩ := rest.exists_expr rfl
      refine ⟨e.signed s t h, Expr.parenthesized_signed he, ?_⟩
      rw [Expr.tokens_signed, htokens, htokens₁, rest₁.tokens_of_nil rfl, List.append_nil]

/-- However a text is derived, it has a reading. -/
theorem exists_of_forest (f : Forest grammar xs) {ts : List Token}
    (hleaves : f.leaves = ts.map Leaf.token) : ∃ T : Reading xs, T.tokens = ts := by
  induction f generalizing ts with
  | nil =>
    cases List.map_eq_nil_iff.mp hleaves.symm
    exact ⟨.nil, rfl⟩
  | leaf x rest ih =>
    obtain ⟨t, ts, rfl, rfl, hrest⟩ := List.map_eq_cons_iff.mp hleaves.symm
    obtain ⟨T, rfl⟩ := ih hrest.symm
    exact ⟨.token t rfl T, rfl⟩
  | @node k p hrule children xs rest ihc ihr =>
    obtain ⟨ts₁, ts₂, rfl, hleaves₁, hleaves₂⟩ := List.map_eq_append_iff.mp hleaves.symm
    obtain ⟨T₁, rfl⟩ := ihc hleaves₁.symm
    obtain ⟨T₂, rfl⟩ := ihr hleaves₂.symm
    by_cases hlhs : p.lhs = Category.numberExpr.index
    · obtain ⟨e, he, htokens⟩ := exists_expr_of_children hrule hlhs T₁
      rw [hlhs, ← htokens]
      exact ⟨.expr e he T₂, rfl⟩
    · exact ⟨.phrase k hrule hlhs T₁ T₂, rfl⟩

/-- Every text that can be derived has a reading. -/
theorem exists_of_derives {ts : List Token}
    (h : grammar.Derives xs (ts.map fun t ↦ .terminal t.kind)) :
    ∃ T : Reading xs, T.tokens = ts := by
  have hsymbols : (ts.map fun t ↦ Symbol.terminal t.kind) =
      (ts.map Leaf.token).map Leaf.symbol := by
    rw [List.map_map]
    rfl
  rw [hsymbols] at h
  obtain ⟨f, hleaves⟩ := Forest.exists_of_derives h
  exact exists_of_forest f hleaves

end Reading

end PlainLedger.Language
