import PlainLedger.Proofs.Language.Recognition

/-!
# Calculations

What an interpretation is asked for when it reads an expression: its numbers and operations,
operands before the operation and from left to right.
-/

namespace PlainLedger

/-- The kind of the first of the tokens, if there is one. -/
def firstKind (ts : List Token) (t : Terminal) : Terminal := (ts.head?.map Token.kind).getD t

theorem firstKind_append (ts us : List Token) (t : Terminal) :
    firstKind (ts ++ us) t = firstKind ts (firstKind us t) := by
  cases ts <;> rfl

theorem Forest.first_eq {α : Type} {g : Grammar α} {xs : List Symbol} (f : Forest g xs)
    {ts : List Token} (hleaves : f.leaves = ts.map Leaf.token) (t : Terminal) :
    f.first t = firstKind ts t := by
  unfold first firstKind
  rw [hleaves]
  cases ts <;> rfl

namespace Language

variable {H ε ω σ : Type}

/-! ## The calls for an expression -/

namespace Expr

/-- The calls of a calculation, and what it comes to. Signs that change nothing and parentheses call
for nothing. -/
inductive Computes : Expr → List (Exchange H ε) → H → Prop where
  | number {t : Token} {h : t.kind = .number} {text : String} {a : H}
    (ht : t.payload = .text text) :
      Computes (.number t h) [.construct (.number text) (.ok a)] a
  | binary {op : Operator} {lhs rhs : Expr} {t : Token} {h : t.kind = op.terminal}
      {calls calls' : List (Exchange H ε)} {a b c : H} (hlhs : Computes lhs calls a)
      (hrhs : Computes rhs calls' b) :
      Computes (.binary op lhs t h rhs) (calls ++ calls' ++ [.construct (.binary op a b) (.ok c)]) c
  | minus {operand : Expr} {t : Token} {h : t.kind = Sign.minus.terminal}
      {calls : List (Exchange H ε)} {a b : H} (hoperand : Computes operand calls a) :
      Computes (.sign .minus t h operand) (calls ++ [.construct (.negate a) (.ok b)]) b
  | plus {operand : Expr} {t : Token} {h : t.kind = Sign.plus.terminal}
      {calls : List (Exchange H ε)} {a : H} (hoperand : Computes operand calls a) :
      Computes (.sign .plus t h operand) calls a
  | group {opening : Token} {ho : opening.kind = .leftParen} {inner : Expr} {closing : Token}
      {hc : closing.kind = .rightParen} {calls : List (Exchange H ε)} {a : H}
      (hinner : Computes inner calls a) : Computes (.group opening ho inner closing hc) calls a

section Plans

variable {origin : Provenance} {flag? : Option Char} {v : Value H} {a b : H}

theorem run_binary (op : Operator) :
    (op.production.plan origin flag?).run { pending := [.handle a, v, .handle b] } =
      .ok (.construct (.binary op a b), ⟨[], [v]⟩) := by
  cases op <;> rfl

theorem payload_of_run_number {t : Token} {plan : Plan H} {args : Args H}
    (h : (Production.number.plan origin flag?).run { pending := [Value.ofToken t] } =
      .ok (plan, args)) : ∃ text, t.payload = .text text ∧ plan = .construct (.number text) := by
  obtain ⟨kind, payload, span⟩ := t
  cases payload with
  | text s =>
    cases h
    exact ⟨s, rfl, rfl⟩
  | none | char => cases h

end Plans

variable {ctx : Context} {slots slots' : List (Slot (Value H))} {calls : List (Exchange H ε)}

/-- What is asked for along the tree of an expression. -/
theorem computes_of_calls {e : Expr} (h : Calls ctx e.forest slots calls slots') :
    ∃ a span, slots' = ⟨0, .handle a, span⟩ :: slots ∧ e.Computes calls a := by
  induction e generalizing slots calls slots' with
  | number t ht =>
    obtain ⟨calls₁, own, slots₁, plan, args, v, span, rfl, rfl, hchildren, hplan, hcarried⟩ :=
      h.of_node
    obtain ⟨rfl, rfl⟩ := hchildren.of_read.of_nil
    obtain ⟨text, htext, rfl⟩ := payload_of_run_number hplan
    cases hcarried with
    | construct _ a => exact ⟨a, span, rfl, .number htext⟩
  | binary op lhs t ht rhs ihl ihr =>
    obtain ⟨calls₁, own, slots₁, plan, args, v, span, rfl, rfl, hchildren, hplan, hcarried⟩ :=
      h.of_node
    obtain ⟨callsl, slotsl, callsr, rfl, hl, hr⟩ := hchildren.exists_of_append
    obtain ⟨a, spana, rfl, ha⟩ := ihl hl
    obtain ⟨b, spanb, rfl, hb⟩ := ihr hr.of_read
    cases hplan.symm.trans (run_binary op)
    cases hcarried with
    | construct _ c => exact ⟨c, span, rfl, .binary ha hb⟩
  | sign s t ht operand ih =>
    obtain ⟨calls₁, own, slots₁, plan, args, v, span, rfl, rfl, hchildren, hplan, hcarried⟩ :=
      h.of_node
    obtain ⟨a, spana, rfl, ha⟩ := ih hchildren.of_read
    cases s with
    | minus =>
      cases hplan
      cases hcarried with
      | construct _ b => exact ⟨b, span, rfl, .minus ha⟩
    | plus =>
      cases hplan
      cases hcarried with
      | keep => exact ⟨a, span, rfl, (List.append_nil calls₁).symm ▸ .plus ha⟩
  | group opening ho inner closing hc ih =>
    obtain ⟨calls₁, own, slots₁, plan, args, v, span, rfl, rfl, hchildren, hplan, hcarried⟩ :=
      h.of_node
    obtain ⟨callsi, slotsi, callsc, rfl, hinner, hclosing⟩ := hchildren.of_read.exists_of_append
    obtain ⟨a, spana, rfl, ha⟩ := ih hinner
    obtain ⟨rfl, rfl⟩ := hclosing.of_read.of_nil
    cases hplan
    cases hcarried with
    | keep =>
      rw [List.append_nil, List.append_nil]
      exact ⟨a, span, rfl, .group ha⟩

end Expr

/-! ## Where expressions stand -/

namespace Reading

variable {xs ys : List Symbol}

theorem first_forest (T : Reading xs) (t : Terminal) :
    T.forest.first t = firstKind T.tokens t :=
  T.forest.first_eq T.leaves_forest t

/-- The expression is one of those that the text is read with, between these parts of it. -/
def Holds (e : Expr) : {xs : List Symbol} → Reading xs → List Token → List Token → Prop
  | _, nil, _, _ => False
  | _, token t _ rest, before, after => ∃ ts, before = t :: ts ∧ rest.Holds e ts after
  | _, phrase _ _ _ children rest, before, after =>
    (∃ ts, after = ts ++ rest.tokens ∧ children.Holds e before ts) ∨
      ∃ ts, before = children.tokens ++ ts ∧ rest.Holds e ts after
  | _, expr e' _ rest, before, after =>
    (e' = e ∧ before = [] ∧ after = rest.tokens) ∨
      ∃ ts, before = e'.tokens ++ ts ∧ rest.Holds e ts after

theorem holds_append {e : Expr} {T : Reading xs} {T' : Reading ys} {before after : List Token} :
    (T.append T').Holds e before after ↔
      (∃ ts, after = ts ++ T'.tokens ∧ T.Holds e before ts) ∨
        ∃ ts, before = T.tokens ++ ts ∧ T'.Holds e ts after := by
  induction T generalizing before after with
  | nil => simp [append, Holds, tokens]
  | token t h rest ih =>
    constructor
    · rintro ⟨ts, rfl, hrest⟩
      rcases ih.mp hrest with ⟨us, rfl, hrest'⟩ | ⟨us, rfl, hT'⟩
      · exact Or.inl ⟨us, rfl, ts, rfl, hrest'⟩
      · exact Or.inr ⟨us, rfl, hT'⟩
    · rintro (⟨us, rfl, ts, rfl, hrest⟩ | ⟨us, rfl, hT'⟩)
      · exact ⟨ts, rfl, ih.mpr (Or.inl ⟨us, rfl, hrest⟩)⟩
      · exact ⟨_, rfl, ih.mpr (Or.inr ⟨us, rfl, hT'⟩)⟩
  | phrase k hrule hp children rest _ ih =>
    constructor
    · rintro (⟨ts, rfl, hchildren⟩ | ⟨ts, rfl, hrest⟩)
      · rw [tokens_append, ← List.append_assoc]
        exact Or.inl ⟨_, rfl, Or.inl ⟨ts, rfl, hchildren⟩⟩
      · rcases ih.mp hrest with ⟨us, rfl, hrest'⟩ | ⟨us, rfl, hT'⟩
        · exact Or.inl ⟨us, rfl, Or.inr ⟨ts, rfl, hrest'⟩⟩
        · exact Or.inr ⟨us, (List.append_assoc ..).symm, hT'⟩
    · rintro (⟨us, rfl, ⟨ts, rfl, hchildren⟩ | ⟨ts, rfl, hrest⟩⟩ | ⟨us, rfl, hT'⟩)
      · refine Or.inl ⟨ts, ?_, hchildren⟩
        rw [tokens_append, List.append_assoc]
      · exact Or.inr ⟨ts, rfl, ih.mpr (Or.inl ⟨us, rfl, hrest⟩)⟩
      · exact Or.inr ⟨_, List.append_assoc .., ih.mpr (Or.inr ⟨us, rfl, hT'⟩)⟩
  | expr e' he rest ih =>
    constructor
    · rintro (⟨rfl, rfl, rfl⟩ | ⟨ts, rfl, hrest⟩)
      · rw [tokens_append]
        exact Or.inl ⟨_, rfl, Or.inl ⟨rfl, rfl, rfl⟩⟩
      · rcases ih.mp hrest with ⟨us, rfl, hrest'⟩ | ⟨us, rfl, hT'⟩
        · exact Or.inl ⟨us, rfl, Or.inr ⟨ts, rfl, hrest'⟩⟩
        · exact Or.inr ⟨us, (List.append_assoc ..).symm, hT'⟩
    · rintro (⟨us, rfl, ⟨rfl, rfl, rfl⟩ | ⟨ts, rfl, hrest⟩⟩ | ⟨us, rfl, hT'⟩)
      · exact Or.inl ⟨rfl, rfl, (tokens_append ..).symm⟩
      · exact Or.inr ⟨ts, rfl, ih.mpr (Or.inl ⟨us, rfl, hrest⟩)⟩
      · exact Or.inr ⟨_, List.append_assoc .., ih.mpr (Or.inr ⟨us, rfl, hT'⟩)⟩

theorem tokens_of_holds {e : Expr} {T : Reading xs} {before after : List Token}
    (h : T.Holds e before after) : T.tokens = before ++ e.tokens ++ after := by
  induction T generalizing before after with
  | nil => exact h.elim
  | token t _ rest ih =>
    obtain ⟨ts, rfl, hrest⟩ := h
    rw [tokens, ih hrest]
    rfl
  | phrase k hrule hp children rest ihc ihr =>
    rcases h with ⟨ts, rfl, hchildren⟩ | ⟨ts, rfl, hrest⟩
    · rw [tokens, ihc hchildren, List.append_assoc]
    · rw [tokens, ihr hrest]
      simp only [List.append_assoc]
  | expr e' he rest ih =>
    rcases h with ⟨rfl, rfl, rfl⟩ | ⟨ts, rfl, hrest⟩
    · rfl
    · rw [tokens, ih hrest]
      simp only [List.append_assoc]

theorem first_forest_of_holds {e : Expr} {T : Reading xs} {before after : List Token}
    (h : T.Holds e before after) (t : Terminal) :
    T.forest.first t = firstKind before (e.forest.first (firstKind after t)) := by
  rw [T.first_forest, tokens_of_holds h, e.forest.first_eq e.leaves_forest, firstKind_append,
    firstKind_append]

end Reading

/-- A rule that is none of expressions replaces its left-hand side. -/
inductive Outlines : List Symbol → List Symbol → Prop where
  | rule {k : Nat} {p : Rule Production} (hrule : grammar.rules[k]? = some p)
      (hp : p.lhs ≠ Category.numberExpr.index) (us vs : List Symbol) :
      Outlines (us ++ .nonterminal p.lhs :: vs) (us ++ p.rhs ++ vs)

/-- Between texts of these kinds a ledger takes an expression, one that is part of no other. -/
def TakesNumber (before after : List Terminal) : Prop :=
  ∃ us vs, Relation.ReflTransGen Outlines [Category.file.symbol]
      (us ++ Category.numberExpr.symbol :: vs) ∧
    grammar.Derives us (before.map .terminal) ∧ grammar.Derives vs (after.map .terminal)

theorem exists_holds_of_outlines {xs us vs : List Symbol}
    (h : Relation.ReflTransGen Outlines xs (us ++ Category.numberExpr.symbol :: vs)) {e : Expr}
    (he : e.Parenthesized) (U : Reading us) (V : Reading vs) :
    ∃ T : Reading xs, T.Holds e U.tokens V.tokens := by
  induction h using Relation.ReflTransGen.head_induction_on with
  | refl =>
    refine ⟨U.append (.expr e he V), Reading.holds_append.mpr (Or.inr ⟨[], ?_, ?_⟩)⟩
    · rw [List.append_nil]
    · exact Or.inl ⟨rfl, rfl, rfl⟩
  | head hstep _ ih =>
    obtain ⟨T, hT⟩ := ih
    cases hstep with
    | rule hrule hp us vs =>
      obtain ⟨T', T₂, rfl⟩ := Reading.exists_append _ T
      obtain ⟨T₁, children, rfl⟩ := Reading.exists_append _ T'
      refine ⟨T₁.append (.phrase _ hrule hp children T₂), Reading.holds_append.mpr ?_⟩
      rcases Reading.holds_append.mp hT with ⟨ts, hts, hT'⟩ | ⟨ts, hts, hT₂⟩
      · rcases Reading.holds_append.mp hT' with ⟨ts', rfl, hT₁⟩ | ⟨ts', hts', hchildren⟩
        · refine Or.inl ⟨ts', ?_, hT₁⟩
          rw [hts, Reading.tokens, List.append_assoc]
        · exact Or.inr ⟨ts', hts', Or.inl ⟨ts, hts, hchildren⟩⟩
      · rw [Reading.tokens_append, List.append_assoc] at hts
        exact Or.inr ⟨_, hts, Or.inr ⟨ts, rfl, hT₂⟩⟩

/-- Where a ledger takes an expression, it has a reading with any expression that is written with
the parentheses it needs. -/
theorem TakesNumber.exists_holds {before after : List Token}
    (h : TakesNumber (before.map Token.kind) (after.map Token.kind)) {e : Expr}
    (he : e.Parenthesized) : ∃ T : Reading [Category.file.symbol], T.Holds e before after := by
  obtain ⟨us, vs, houtlines, hus, hvs⟩ := h
  rw [List.map_map] at hus hvs
  obtain ⟨U, rfl⟩ := Reading.exists_of_derives hus
  obtain ⟨V, rfl⟩ := Reading.exists_of_derives hvs
  exact exists_holds_of_outlines houtlines he U V

/-- The way along a reading comes to the expression, and goes along it. -/
theorem Reading.exists_leads_of_holds {e : Expr} {xs : List Symbol} {T : Reading xs}
    {before after : List Token} (h : T.Holds e before after) {n n' : Nat} {t : Terminal}
    (hleads : Leads grammar n T.forest t n') :
    ∃ (zs : List Symbol) (f : Forest grammar zs) (n₁ n₂ : Nat),
      f.leaves = before.map Leaf.token ∧
      Leads grammar n f (e.forest.first (firstKind after t)) n₁ ∧
      Leads grammar n₁ e.forest (firstKind after t) n₂ := by
  induction T generalizing before after n n' t with
  | nil => exact h.elim
  | @token t₀ u hkind xs rest ih =>
    subst hkind
    obtain ⟨ts, rfl, hrest⟩ := h
    obtain ⟨m, row, hrow, hdecide, hleads⟩ := Leads.begun hleads
    obtain ⟨zs, f, n₁, n₂, hleaves, hf, he⟩ := ih hrest hleads
    refine ⟨_, .leaf (.token t₀) f, n₁, n₂, ?_, .leaf hrow hdecide hf, he⟩
    rw [Forest.leaves, hleaves, List.map_cons]
  | phrase k hrule hp children rest ihc ihr =>
    obtain ⟨m₁, m, row, hchildren, hrow, hdecide, hedge, hleads⟩ := Leads.begun hleads
    rcases h with ⟨ts, rfl, h⟩ | ⟨ts, rfl, h⟩
    · obtain ⟨zs, f, n₁, n₂, hleaves, hf, he⟩ := ihc h hchildren
      rw [rest.first_forest, ← firstKind_append] at hf he
      exact ⟨zs, f, n₁, n₂, hleaves, hf, he⟩
    · obtain ⟨zs, f, n₁, n₂, hleaves, hf, he⟩ := ihr h hleads
      rw [Reading.first_forest_of_holds h, ← f.first_eq hleaves] at hchildren hdecide
      refine ⟨_, .node k hrule children.forest f, n₁, n₂, ?_,
        .node hchildren hrow hdecide hedge hf, he⟩
      rw [Forest.leaves, children.leaves_forest, hleaves, List.map_append]
  | expr e' he rest ih =>
    obtain ⟨m, he', hrest⟩ := Leads.exists_of_append hleads
    rcases h with ⟨rfl, rfl, rfl⟩ | ⟨ts, rfl, h⟩
    · rw [rest.first_forest] at he'
      exact ⟨_, .nil, n, m, rfl, .nil n _, he'⟩
    · obtain ⟨zs, f, n₁, n₂, hleaves, hf, he⟩ := ih h hrest
      rw [Reading.first_forest_of_holds h, ← f.first_eq hleaves] at he'
      refine ⟨_, e'.forest.append f, n₁, n₂, ?_, .append he' hf, he⟩
      rw [Forest.leaves_append, e'.leaves_forest, hleaves, List.map_append]

/-! ## Calculations in a run -/

section Runs

variable {i : Interpretation H ε σ ω} {ctx : Context} {options : Options} {tokens : List Token}
  {state : σ}

/-- What has been written down is there in the end. -/
theorem prefix_conclude {xs : List (Exchange H ε)}
    {out : Outcome (Value H) × Config (Value H) (Session (σ × List (Exchange H ε)))}
    (h : xs <+: out.2.memory.record) : xs <+: (conclude i.watched ctx out).2.2 := by
  obtain ⟨outcome, c⟩ := out
  cases outcome with
  | unfinished => exact h
  | aborted cause => exact h
  | accepted v =>
    by_cases hlist : ∃ hs, v = .list hs
    · obtain ⟨hs, rfl⟩ := hlist
      exact h.trans (List.prefix_append _ _)
    · rw [conclude_of_ne_list i.watched ctx fun hs h ↦ hlist ⟨hs, h⟩]
      rw [← record_releaseAll i v.handles] at h
      exact h.trans (List.prefix_append _ _)

theorem prefix_finish {xs : List (Exchange H ε)}
    {s : Step (Value H) (Session (σ × List (Exchange H ε)))}
    (h : s.Post (fun c ↦ xs <+: c.memory.record) (fun _ c ↦ xs <+: c.memory.record)
      fun _ c ↦ xs <+: c.memory.record) :
    xs <+: ((engine ctx options).finish (reducer i.watched ctx) s).2.memory.record := by
  have hclear : ∀ c : Config (Value H) (Session (σ × List (Exchange H ε))),
      xs <+: c.memory.record →
      xs <+: (Engine.clear (reducer i.watched ctx) c).memory.record := by
    intro c h
    refine (Engine.noise_clear (reducer i.watched ctx) c).keeps (J := fun s ↦ xs <+: s.record) h
      ?_ ?_
    · exact fun d s h ↦ h.trans (List.prefix_append _ _)
    · exact fun v s h ↦ (record_releaseAll i v.handles s).symm ▸ h
  cases s with
  | running c => exact h
  | accepted v c => exact hclear c h
  | aborted cause c => exact (hclear c h).trans (List.prefix_append _ _)

theorem prefix_parse {N : Nat} {c : Config (Value H) (Session (σ × List (Exchange H ε)))}
    (h : (engine ctx options).steps (reducer i.watched ctx) N
      ((engine ctx options).start (reducer i.watched ctx) tokens ⟨(state, []), #[]⟩) = .running c) :
    c.memory.record <+: (parse i.watched ctx options tokens (state, [])).2.2 := by
  have hend := run_ne_unfinished i.watched ctx options tokens (state, [])
  apply prefix_conclude
  unfold run Engine.run at hend ⊢
  have htraced := Engine.continues_steps (r := reducer i.watched ctx) (e := engine ctx options)
    tables_engine N tokens ⟨(state, []), #[]⟩
  rw [h] at htraced
  generalize stepBudget tokens.length = budget at hend ⊢
  rcases Nat.le_total N budget with hle | hle
  · obtain ⟨M, rfl⟩ := Nat.exists_eq_add_of_le hle
    have hprefix := prefix_steps htraced List.prefix_rfl M
    rw [Engine.steps_add, h]
    exact prefix_finish hprefix
  · -- a run that is over does not go on
    obtain ⟨M, rfl⟩ := Nat.exists_eq_add_of_le hle
    rw [Engine.steps_add] at h
    cases hs : (engine ctx options).steps (reducer i.watched ctx) budget
        ((engine ctx options).start (reducer i.watched ctx) tokens ⟨(state, []), #[]⟩) with
    | running c' =>
      rw [hs] at hend
      exact (hend rfl).elim
    | accepted v c' =>
      rw [hs, Engine.steps_accepted] at h
      cases h
    | aborted cause c' =>
      rw [hs, Engine.steps_aborted] at h
      cases h

/-- A run that finds room goes on. -/
theorem exists_running {N : Nat}
    (hroom : ∀ depth ds, (parse i ctx options tokens state).1 ≠ .failed (.stackOverflow depth) ds)
    {P : Config (Value H) (Session σ) → Prop}
    (h : ((engine ctx options).steps (reducer i ctx) N
      ((engine ctx options).start (reducer i ctx) tokens ⟨state, #[]⟩)).Post P (fun _ _ ↦ False)
        fun cause _ ↦ ∃ d, cause = .stackOverflow d) :
    ∃ c, (engine ctx options).steps (reducer i ctx) N
      ((engine ctx options).start (reducer i ctx) tokens ⟨state, #[]⟩) = .running c ∧ P c := by
  cases hs : (engine ctx options).steps (reducer i ctx) N
      ((engine ctx options).start (reducer i ctx) tokens ⟨state, #[]⟩) with
  | running c =>
    rw [hs] at h
    exact ⟨c, rfl, h⟩
  | accepted v c =>
    rw [hs] at h
    exact h.elim
  | aborted cause c =>
    rw [hs] at h
    obtain ⟨d, rfl⟩ := h
    have hrun := Engine.run_eq_finish (A := fun _ _ ↦ True) (B := fun _ _ ↦ True)
      (run_ne_unfinished i ctx options tokens state) (N := N) (by rw [hs]; trivial)
    obtain ⟨ds, hds⟩ : ∃ ds, (parse i ctx options tokens state).1 =
        .failed (.stackOverflow d) ds := by
      unfold parse run
      rw [hrun, hs]
      exact ⟨_, rfl⟩
    exact (hroom d ds hds).elim

end Runs

/-- Where nothing is refused and the stack does not overflow, and a ledger takes an expression that
is written with the parentheses it needs, then from its first token to its last the interpretation
is asked for its numbers and operations, operands before the operation and from left to right. -/
theorem calculates_expression (i : Interpretation H ε σ ω) (hi : i.Accepting) (ctx : Context)
    (options : Options) {e : Expr} (he : e.Parenthesized) {before after tokens : List Token}
    (hplace : TakesNumber (before.map Token.kind) (after.map Token.kind))
    (htext : textOf tokens = before ++ e.tokens ++ after) (hsound : ∀ t ∈ tokens, t.Sound)
    (state : σ)
    (hroom : ∀ depth ds, (parse i ctx options tokens state).1 ≠ .failed (.stackOverflow depth) ds) :
    (∃ whole ds, (parse i ctx options tokens state).1 = .complete whole ds ∧
        hasErrors ds = false) ∧
      ∃ (N N' : Nat) (c c' : Config (Value H) (Session (σ × List (Exchange H ε))))
        (calls later : List (Exchange H ε)) (x : Slot (Value H)) (a : H),
        (engine ctx options).steps (reducer i.watched ctx) N
            ((engine ctx options).start (reducer i.watched ctx) tokens ⟨(state, []), #[]⟩) =
          .running c ∧
        c.pending = e.tokens ++ after ∧
        (engine ctx options).steps (reducer i.watched ctx) N' (.running c) = .running c' ∧
        c'.pending = after ∧
        c'.stack.slots = x :: c.stack.slots ∧ x.value = .handle a ∧
        e.Computes calls a ∧
        c'.memory.record = c.memory.record ++ calls ∧
        (parse i.watched ctx options tokens (state, [])).2.2 = c'.memory.record ++ later := by
  obtain ⟨T, hT⟩ := hplace.exists_holds he
  have htokens : T.tokens = textOf tokens := by rw [Reading.tokens_of_holds hT, htext]
  refine ⟨(T.carriesOut hi htokens hsound state).parse hroom, ?_⟩
  rw [← (parse_watched i ctx options tokens state []).1] at hroom
  obtain ⟨n, row, hleads, -⟩ := T.exists_leads_start
  obtain ⟨zs, f, n₁, n₂, hleaves, hf, hexpr⟩ := Reading.exists_leads_of_holds hT hleads
  have hts : ∀ t ∈ textOf tokens, Typed (.terminal t.kind) (Value.ofToken t : Value H) :=
    fun t ht ↦ typed_ofToken (hsound t ((List.takeWhile_sublist _).subset ht))
  have hlex : ∀ t ∈ textOf tokens, t.kind ≠ .lexError := htokens ▸ T.ne_lexError
  rw [htext, List.append_assoc] at hlex hts
  have hobliging := hi.watched.obliging ctx options
  -- the way to the expression
  have hstart := Engine.post_start_fresh (e := engine ctx options) (r := reducer i.watched ctx)
    tokens ⟨(state, []), #[]⟩
  rw [← Engine.steps_zero (engine ctx options) (reducer i.watched ctx)
    ((engine ctx options).start (reducer i.watched ctx) tokens _)] at hstart
  have hway : ∃ N, ((engine ctx options).steps (reducer i.watched ctx) N
      ((engine ctx options).start (reducer i.watched ctx) tokens ⟨(state, []), #[]⟩)).Post
      (fun c ↦ c.pending = e.tokens ++ after ∧ ∃ x rest ys, c.stack.slots = x :: rest ∧
        x.state = n₁ ∧ Spelled grammar Typed c.stack.slots ys)
      (fun _ _ ↦ False) fun cause _ ↦ ∃ d, cause = .stackOverflow d := by
    apply Engine.post_steps_trans hstart
    rintro c ⟨hslots, hpending, -⟩
    have hs : Spelled grammar Typed c.stack.slots [] := by
      rw [hslots]
      exact .bottom rfl
    rw [htext, List.append_assoc] at hpending
    obtain ⟨N, hN⟩ := hf.walks tables_engine hobliging hs hslots rfl hleaves
      (fun t ht _ ↦ hts t ht) hpending (by rw [hpending]; exact hlex)
        (e.forest.first_eq e.leaves_forest _ ▸ firstKind_append ..)
    refine ⟨N, hN.imp ?_ (fun _ _ h ↦ h) fun _ _ h ↦ h⟩
    rintro c' ⟨evs, x, rest, -, -, hpending', hslots', hx, hs'⟩
    exact ⟨hpending', x, rest, _, hslots', hx, hs'⟩
  obtain ⟨N, hN⟩ := hway
  obtain ⟨c, hc, hpending, x, rest, ys, hslots, hx, hs⟩ := exists_running hroom hN
  -- the way along the expression
  obtain ⟨N', hN'⟩ := hexpr.walks tables_engine hobliging hs hslots hx e.leaves_forest
    (fun t ht _ ↦ hts t (List.mem_append_right _ ht)) hpending
    (by rw [hpending]; exact fun t ht ↦ hlex t (List.mem_append_right _ ht)) rfl
  rw [← hc, ← Engine.steps_add] at hN'
  obtain ⟨c', hc', evs, y, rest', hwalks, -, hpending', hslots', -, -⟩ := exists_running hroom hN'
  rw [Engine.steps_add, hc] at hc'
  obtain ⟨calls, hcalls, hrecord⟩ := Calls.of_walks hwalks
  obtain ⟨a, span, hvalue, hcomputes⟩ := Expr.computes_of_calls hcalls
  have hbelow := hwalks.drop_eq
  rw [hslots'] at hvalue hbelow
  obtain ⟨later, hlater⟩ := prefix_parse (N := N + N') (by rw [Engine.steps_add, hc, hc'])
  refine ⟨N, N', c, c', calls, later, y, a, hc, hpending, hc', hpending', ?_, ?_, hcomputes,
    hrecord, hlater.symm⟩
  · rw [hslots', ← hbelow]
    rfl
  · exact congrArg Slot.value (List.cons.inj hvalue).1

/-- A price is taken after the currency that it is the price of. -/
theorem takesNumber_price : TakesNumber [.date, .price, .currency] [.currency, .eol] := by
  have hnone : grammar.rules[1]? =
      some ⟨Category.declarations.index, [], .declarationsEmpty, none⟩ := rfl
  have heol : grammar.rules[24]? =
      some ⟨Category.eol.index, [.terminal .eol], .discard, none⟩ := rfl
  have hdetails : grammar.rules[63]? =
      some ⟨Category.keyValueList.index, [], .metaListEmpty, none⟩ := rfl
  refine ⟨[Category.declarations.symbol, .terminal .date, .terminal .price, .terminal .currency],
    [.terminal .currency, Category.eol.symbol, Category.keyValueList.symbol], ?_, ?_, ?_⟩
  · calc Relation.ReflTransGen Outlines [Category.file.symbol] [Category.declarations.symbol] :=
          .single (.rule (k := 0) rfl (by decide) [] [])
      Relation.ReflTransGen Outlines _ [Category.declarations.symbol, Category.entry.symbol] :=
          .single (.rule (k := 3) rfl (by decide) [] [])
      Relation.ReflTransGen Outlines _ [Category.declarations.symbol, Category.price.symbol] :=
          .single (.rule (k := 19) rfl (by decide) [Category.declarations.symbol] [])
      Relation.ReflTransGen Outlines _ [Category.declarations.symbol, .terminal .date,
          .terminal .price, .terminal .currency, Category.amount.symbol, Category.eol.symbol,
          Category.keyValueList.symbol] :=
        .single (.rule (k := 95) rfl (by decide) [Category.declarations.symbol] [])
      Relation.ReflTransGen Outlines _ _ :=
        .single (.rule (k := 77) rfl (by decide) [Category.declarations.symbol, .terminal .date,
          .terminal .price, .terminal .currency]
            [Category.eol.symbol, Category.keyValueList.symbol])
  · exact .single (.rule hnone [] [.terminal .date, .terminal .price, .terminal .currency])
  · exact .head (.rule heol [.terminal .currency] [Category.keyValueList.symbol])
      (.single (.rule hdetails [.terminal .currency, .terminal .eol] []))

/-- The sum in the line `2024-01-01 price USD 1 + 2 EUR`. -/
def priceSum : Expr :=
  .binary .add (.number (.ofText .number "1" .start) rfl) (.bare .plus .start) rfl
    (.number (.ofText .number "2" .start) rfl)

theorem calculates_expression_priceLine :
    (Interpretation.counting.Accepting ∧ priceSum.Parenthesized ∧
      TakesNumber ((priceLine.take 3).map Token.kind) ((priceLine.drop 6).map Token.kind) ∧
      textOf priceLine = priceLine.take 3 ++ priceSum.tokens ++ priceLine.drop 6 ∧
      (∀ t ∈ priceLine, t.Sound) ∧
      ∀ depth ds, (parse .counting ⟨"main", 0⟩ {} priceLine 0).1 ≠
        .failed (.stackOverflow depth) ds) ∧
    ∃ earlier calls later a, priceSum.Computes calls a ∧
      (parse Interpretation.counting.watched ⟨"main", 0⟩ {} priceLine (0, [])).2.2 =
        earlier ++ calls ++ later := by
  obtain ⟨whole, ds, hcomplete, -⟩ := Parsed.exists_of_isClean isClean_priceLine
  have hroom : ∀ depth ds, (parse .counting ⟨"main", 0⟩ {} priceLine 0).1 ≠
      .failed (.stackOverflow depth) ds := by
    intro depth ds h
    rw [hcomplete] at h
    cases h
  have hplace : TakesNumber ((priceLine.take 3).map Token.kind)
      ((priceLine.drop 6).map Token.kind) := takesNumber_price
  have hparenthesized : priceSum.Parenthesized := by
    simp [priceSum, Expr.Parenthesized, Expr.level, Operator.level]
  have htext : textOf priceLine = priceLine.take 3 ++ priceSum.tokens ++ priceLine.drop 6 := by
    decide
  obtain ⟨-, N, N', c, c', calls, later, x, a, -, -, -, -, -, -, hcomputes, hrecord, hlater⟩ :=
    calculates_expression .counting accepting_counting ⟨"main", 0⟩ {} hparenthesized
      hplace htext sound_priceLine 0 hroom
  rw [hrecord] at hlater
  exact ⟨⟨accepting_counting, hparenthesized, hplace, htext, sound_priceLine, hroom⟩,
    _, calls, later, a, hcomputes, hlater⟩

end Language

end PlainLedger
