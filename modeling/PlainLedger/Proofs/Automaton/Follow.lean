import PlainLedger.Proofs.Automaton.Leads

/-!
# What follows along a path

A state of the automaton stands for every path that ends in it, and the lookaheads of a state are
those of all of these paths together. Along a single path fewer terminals may follow an item. If a
terminal may come next after a completed rule has been taken off a path, then it may follow that
rule along the path, and so it is among the lookaheads that the rule was completed for.
-/

namespace PlainLedger.Grammar

variable {α : Type}

/-- Each nonterminal derives some text. -/
def Productive (g : Grammar α) : Prop :=
  ∀ n < g.names.length, ∃ ts : List Terminal, g.Derives [.nonterminal n] (ts.map .terminal)

theorem productive_parenthesized : parenthesized.Productive := by
  intro n hn
  obtain rfl : n = 0 := Nat.lt_one_iff.mp hn
  exact ⟨[.number], .single (produces_rhs (g := parenthesized) (k := 0) rfl)⟩

/-- Along the path, the last state of which comes first, the terminal may follow the item. -/
inductive Follows (g : Grammar α) : List Nat → Item → Terminal → Prop where
  | start : Follows g [0] g.startItem .endOfInput
  | predict {ss : List Nat} {k : Nat} {i : Item} {t u : Terminal} {p : Rule α} {rest : List Symbol}
      (h : Follows g ss i t) (hdot : g.afterDot i = .nonterminal p.lhs :: rest)
      (hrule : g.rules[k]? = some p) (hu : u ∈ (g.flows.ofSymbols rest).apply (.singleton t)) :
      Follows g ss ⟨k, 0⟩ u
  | advance {n m : Nat} {ss : List Nat} {i : Item} {t : Terminal} {x : Symbol}
      (h : Follows g (n :: ss) i t) (hnext : g.next? i = some x) (he : g.Edge n x m) :
      Follows g (m :: n :: ss) i.advance t

/-- The terminal may come next where the path ends. -/
def Awaits (g : Grammar α) (ss : List Nat) (t : Terminal) : Prop :=
  ∃ i u, g.Follows ss i u ∧ t ∈ (g.flows.ofSymbols (g.afterDot i)).apply (.singleton u)

variable {g : Grammar α} {ss : List Nat} {i : Item} {t u : Terminal}

theorem Follows.mayFollow {n : Nat} (h : g.Follows (n :: ss) i t) : g.MayFollow n i t := by
  generalize hpath : n :: ss = ns at h
  induction h generalizing n ss with
  | start =>
    cases hpath
    exact .start
  | predict _ hdot hrule hu ih => exact .predict (ih hpath) hdot hrule hu
  | advance _ hnext he ih =>
    cases hpath
    exact .advance (ih rfl) hnext he

theorem afterDot_of_next? {x : Symbol} (h : g.next? i = some x) :
    g.afterDot i = x :: g.afterDot i.advance := by
  obtain ⟨xs, hxs⟩ := List.head?_eq_some_iff.mp h
  rw [hxs, afterDot_advance hxs]

theorem afterDot_zero {k : Nat} {p : Rule α} (h : g.rules[k]? = some p) :
    g.afterDot ⟨k, 0⟩ = p.rhs := by
  rw [afterDot, List.drop_zero, g.rhs_of_getElem? h]

theorem afterDot_done {k : Nat} {p : Rule α} (h : g.rules[k]? = some p) :
    g.afterDot ⟨k, p.rhs.length⟩ = [] := by
  rw [afterDot, g.rhs_of_getElem? h, List.drop_length]

/-! ## Something follows -/

/-- Declared nonterminals stand for something. -/
theorem Productive.nonempty_forest (hproductive : g.Productive) {xs : List Symbol}
    (hxs : ∀ n, .nonterminal n ∈ xs → n < g.names.length) : Nonempty (Forest g xs) := by
  induction xs with
  | nil => exact ⟨.nil⟩
  | cons x xs ih =>
    obtain ⟨rest⟩ := ih fun n hn ↦ hxs n (List.mem_cons_of_mem _ hn)
    cases x with
    | terminal s => exact ⟨.leaf (.token (.bare s .start)) rest⟩
    | nonterminal n =>
      obtain ⟨ts, hts⟩ := hproductive n (hxs n (List.mem_cons_self ..))
      rw [← Leaf.symbols_ofTerminals] at hts
      obtain ⟨f, -⟩ := Forest.exists_of_derives hts
      exact ⟨f.append rest⟩

/-- What nonterminals stand for begins with something, whatever follows. -/
theorem exists_mem_apply (hg : g.Closed) (hproductive : g.Productive) {xs : List Symbol}
    (hxs : ∀ n, .nonterminal n ∈ xs → n < g.names.length) (t : Terminal) :
    ∃ u, u ∈ (g.flows.ofSymbols xs).apply (.singleton t) := by
  obtain ⟨f⟩ := hproductive.nonempty_forest hxs
  exact ⟨f.first t, f.first_mem_apply hg (TerminalSet.mem_singleton.mpr rfl)⟩

theorem lt_of_mem_rhs (hg : g.Closed) {k n : Nat} (h : .nonterminal n ∈ g.rhs k) :
    n < g.names.length := by
  obtain ⟨d, hd⟩ := List.mem_iff_getElem?.mp h
  apply lt_of_next? hg (i := ⟨k, d⟩)
  rw [next?_eq_getElem?]
  exact hd

/-- A nonterminal that is predicted stands after the mark of an item that something follows. -/
theorem exists_follows_of_predicted (hg : g.Closed) (hproductive : g.Productive)
    {kernel : List Item} (hkernel : ∀ i ∈ kernel, ∃ u, g.Follows ss i u) {n : Nat}
    (hn : n ∈ g.predicted kernel) :
    ∃ i u, g.Follows ss i u ∧ g.next? i = some (.nonterminal n) := by
  revert n
  rw [predicted_eq g kernel]
  refine settle_induction (P := fun ns : List Nat ↦ ∀ {n}, n ∈ ns →
    ∃ i u, g.Follows ss i u ∧ g.next? i = some (.nonterminal n)) ?_ _ ?_
  · intro ns hns n hn
    rcases g.mem_predictMore.mp hn with hn | ⟨m, hm, hn⟩
    · exact hns hn
    · obtain ⟨p, hp, rfl, hhead⟩ := g.mem_leading.mp hn
      obtain ⟨k, hk⟩ := List.mem_iff_getElem?.mp hp
      obtain ⟨i, u, hi, hnext⟩ := hns hm
      have hdot := afterDot_of_next? hnext
      obtain ⟨v, hv⟩ := exists_mem_apply hg hproductive
        (fun m (hm : .nonterminal m ∈ g.afterDot i.advance) ↦
          lt_of_mem_rhs hg ((List.drop_sublist _ _).subset hm)) u
      refine ⟨⟨k, 0⟩, v, .predict hi hdot hk hv, ?_⟩
      rw [g.next?_zero hk, hhead]
  · intro n hn
    obtain ⟨i, hi, hnext⟩ := g.mem_marked.mp (Ordered.mem_ofList.mp hn)
    obtain ⟨u, hu⟩ := hkernel i hi
    exact ⟨i, u, hu, hnext⟩

theorem exists_follows_of_kernelHas (hg : g.Closed) (hproductive : g.Productive) {n : Nat}
    (hkernel : ∀ i, g.KernelHas n i → ∃ u, g.Follows (n :: ss) i u) (hi : g.Has n i) :
    ∃ u, g.Follows (n :: ss) i u := by
  obtain ⟨S, hS, hi⟩ := hi
  rcases g.mem_closure.mp hi with hi | ⟨hdot, p, hp, hlhs⟩
  · exact hkernel i ⟨S, hS, hi⟩
  · obtain ⟨j, u, hj, hnext⟩ := exists_follows_of_predicted hg hproductive
      (fun j hj ↦ hkernel j ⟨S, hS, hj⟩) hlhs
    have hafter := afterDot_of_next? hnext
    obtain ⟨v, hv⟩ := exists_mem_apply hg hproductive
      (fun m (hm : .nonterminal m ∈ g.afterDot j.advance) ↦
        lt_of_mem_rhs hg ((List.drop_sublist _ _).subset hm)) u
    obtain ⟨k, d⟩ := i
    subst hdot
    exact ⟨v, .predict hj hafter hp hv⟩

/-- Along a path, something may follow each item of the state that it ends in. -/
theorem Path.exists_follows (hg : g.Closed) (hproductive : g.Productive) {n : Nat}
    {ys : List Symbol} (h : g.Path (n :: ss) ys) (hi : g.Has n i) :
    ∃ u, g.Follows (n :: ss) i u := by
  generalize hpath : n :: ss = ns at h
  induction h generalizing n ss i with
  | start =>
    cases hpath
    refine exists_follows_of_kernelHas hg hproductive (fun j hj ↦ ?_) hi
    rw [kernelHas_start_iff.mp hj]
    exact ⟨_, .start⟩
  | step h he ih =>
    cases hpath
    refine exists_follows_of_kernelHas hg hproductive (fun j hj ↦ ?_) hi
    obtain ⟨j', hj', hnext, rfl⟩ := (kernelHas_iff_of_edge he).mp hj
    obtain ⟨u, hu⟩ := ih hj' rfl
    exact ⟨u, hu.advance hnext he⟩

/-- Only the end of the text follows the whole text. -/
theorem Follows.eq_endOfInput {d : Nat} (h : g.Follows ss ⟨g.acceptRule, d⟩ t) :
    t = .endOfInput := by
  generalize hi : (⟨g.acceptRule, d⟩ : Item) = i at h
  induction h generalizing d with
  | start => rfl
  | predict _ _ hrule _ _ =>
    cases hi
    exact ((List.getElem?_eq_some_iff.mp hrule).1.ne rfl).elim
  | @advance _ _ _ i _ _ _ _ _ ih =>
    have hrule : g.acceptRule = i.rule := congrArg Item.rule hi
    refine ih (d := i.dot) ?_
    rw [hrule]

/-! ## What may be read, and what may be completed -/

variable {n m k : Nat} {ys : List Symbol} {p : Rule α}

/-- What can be read may come next. -/
theorem awaits_of_edge (hg : g.Closed) (hproductive : g.Productive) (h : g.Path (n :: ss) ys)
    (he : g.Edge n (.terminal t) m) : g.Awaits (n :: ss) t := by
  obtain ⟨i, hi, hnext, -⟩ := exists_kernelHas_of_edge he
  obtain ⟨u, hu⟩ := h.exists_follows hg hproductive hi
  refine ⟨i, u, hu, ?_⟩
  rw [afterDot_of_next? hnext, FlowTable.ofSymbols_cons, Flow.mem_apply_andThen, Flow.mem_apply]
  exact Or.inl (TerminalSet.mem_singleton.mpr rfl)

/-- Where the whole text has been read, its end may come next. -/
theorem awaits_of_accept (hg : g.Closed) (hproductive : g.Productive) (h : g.Path (n :: ss) ys)
    (hi : g.Has n ⟨g.acceptRule, 1⟩) : g.Awaits (n :: ss) .endOfInput := by
  obtain ⟨u, hu⟩ := h.exists_follows hg hproductive hi
  obtain rfl := hu.eq_endOfInput
  have hdone : g.afterDot ⟨g.acceptRule, 1⟩ = [] := by
    rw [afterDot, rhs_acceptRule]
    rfl
  refine ⟨_, _, hu, ?_⟩
  rw [hdone, FlowTable.ofSymbols_nil, Flow.mem_apply]
  exact Or.inr ⟨rfl, TerminalSet.mem_singleton.mpr rfl⟩

/-- What may come next after an edge may follow some item that goes on with the symbol of the edge,
once the symbol has been read. -/
theorem Awaits.exists_follows (hg : g.Closed) {x : Symbol} (he : g.Edge n x m)
    (h : g.Awaits (m :: n :: ss) t) :
    ∃ i u, g.Follows (n :: ss) i u ∧ g.next? i = some x ∧
      t ∈ (g.flows.ofSymbols (g.afterDot i.advance)).apply (.singleton u) := by
  obtain ⟨i, u, hi, ht⟩ := h
  generalize hpath : m :: n :: ss = ns at hi
  induction hi with
  | start => cases hpath
  | @predict _ k j v w p rest _ hdot hrule hw ih =>
    refine ih ?_ hpath
    -- what the rule begins with is what its left-hand side begins with
    have hwithin := (Draft.within_flows hg (List.mem_of_getElem? hrule)).mem_apply
      (t := t) (s := (g.flows.ofSymbols rest).apply (.singleton v))
    rw [afterDot_zero hrule] at ht
    rw [hdot, FlowTable.ofSymbols_cons, Flow.mem_apply_andThen]
    apply hwithin
    rw [Flow.mem_apply] at ht ⊢
    refine ht.imp_right fun ⟨hpasses, ht⟩ ↦ ⟨hpasses, ?_⟩
    rwa [TerminalSet.mem_singleton.mp ht]
  | @advance n' m' _ i t x' hi hnext he' _ =>
    cases hpath
    cases he.symbol_unique he'
    exact ⟨i, _, hi, hnext, ht⟩

/-- What may follow a rule where it is predicted may follow as much of it as has been read. -/
theorem Path.follows_of_drop {d y : Nat} {below : List Nat} (h : g.Path (n :: ss) ys)
    (hi : g.Has n ⟨k, d⟩) (hbelow : (n :: ss).drop d = y :: below)
    (ht : g.Follows (y :: below) ⟨k, 0⟩ t) : g.Follows (n :: ss) ⟨k, d⟩ t := by
  induction d generalizing n ss ys with
  | zero =>
    cases hbelow
    exact ht
  | succ d ih =>
    have hkernel := hi.kernelHas (Nat.succ_ne_zero d)
    cases h with
    | start =>
      have hdot := congrArg Item.dot (kernelHas_start_iff.mp hkernel)
      exact (Nat.succ_ne_zero d hdot).elim
    | step h he =>
      obtain ⟨⟨k', d'⟩, hi', hnext, heq⟩ := (kernelHas_iff_of_edge he).mp hkernel
      simp only [Item.advance, Item.mk.injEq, Nat.add_right_cancel_iff] at heq
      obtain ⟨rfl, rfl⟩ := heq
      exact .advance (ih h hi' hbelow) hnext he

/-- What may come next after a completed rule has been taken off the path may follow the rule. -/
theorem Path.follows_of_reduce (hg : g.Closed) {y : Nat} {below : List Nat}
    (h : g.Path (n :: ss) ys) (hrule : g.rules[k]? = some p) (hi : g.Has n ⟨k, p.rhs.length⟩)
    (hbelow : (n :: ss).drop p.rhs.length = y :: below) (he : g.Edge y (.nonterminal p.lhs) m)
    (ht : g.Awaits (m :: y :: below) t) : g.Follows (n :: ss) ⟨k, p.rhs.length⟩ t := by
  obtain ⟨i, u, hu, hnext, ht⟩ := ht.exists_follows hg he
  exact h.follows_of_drop hi hbelow (.predict hu (afterDot_of_next? hnext) hrule ht)

theorem Follows.awaits_of_done (hrule : g.rules[k]? = some p)
    (h : g.Follows ss ⟨k, p.rhs.length⟩ t) : g.Awaits ss t := by
  refine ⟨_, _, h, ?_⟩
  rw [afterDot_done hrule, FlowTable.ofSymbols_nil, Flow.mem_apply]
  exact Or.inr ⟨rfl, TerminalSet.mem_singleton.mpr rfl⟩

/-! ## Rows before their defaults are taken out -/

/-- What a state does before a terminal according to its full row. -/
def fullAction? (g : Grammar α) (n : Nat) (t : Terminal) : Option Action :=
  (g.fullRows g.flows g.states g.lookaheads)[n]?.bind fun row ↦ row.1.lookup t

theorem fullAction?_eq {S : State} {la : List TerminalSet} (hS : g.states[n]? = some S)
    (hla : g.lookaheads[n]? = some la) (t : Terminal) :
    g.fullAction? n t = (g.cell g.flows n S la t).1 := by
  have hzip : (g.states.zip g.lookaheads)[n]? = some (S, la) :=
    List.getElem?_zip_eq_some.mpr ⟨hS, hla⟩
  have hrow : (g.fullRows g.flows g.states g.lookaheads)[n]? =
      some (g.fullRow g.flows n S la) := by
    rw [fullRows, List.getElem?_map, List.getElem?_zipIdx, Nat.zero_add, hzip]
    rfl
  rw [fullAction?, hrow]
  exact lookup_fullRow ..

/-- Taking the default out of a full row only fills its gaps. -/
theorem decide_eq_fullAction? {row : Row} (hrow : g.tables.row? n = some row) (t : Terminal) :
    row.decide t = (g.fullAction? n t).or (row.default?.map .reduce) := by
  obtain ⟨S, la, hS, hla, rfl⟩ := tables_row?.mp hrow
  rw [Row.decide_ofEntries (g.nodup_keys_fullRow ..), lookup_fullRow, fullAction?_eq hS hla]
  rfl

/-- Before a terminal that may follow a completed rule, a full row says something. -/
theorem Follows.fullAction?_ne_none (hg : g.Closed) (hrule : g.rules[k]? = some p)
    (h : g.Follows (n :: ss) ⟨k, p.rhs.length⟩ t) : g.fullAction? n t ≠ none := by
  have hmay := h.mayFollow
  obtain ⟨S, hS, -⟩ := hmay.has hg
  obtain ⟨la, hla, -⟩ := length_row_lookaheads hS
  have hk := hmay.mem_completable hg (afterDot_done hrule) hS hla
  have hne : k ≠ g.acceptRule := (List.getElem?_eq_some_iff.mp hrule).1.ne
  have hmem : k ∈ (g.completable g.flows S la t).filter (· != g.acceptRule) :=
    List.mem_filter.mpr ⟨hk, by simpa using hne⟩
  rw [fullAction?_eq hS hla, cell]
  generalize (g.completable g.flows S la t).filter (· != g.acceptRule) = ks at hmem
  cases ks with
  | nil => cases hmem
  | cons k' ks =>
    unfold entry
    split
    · exact Option.some_ne_none _
    · dsimp only
      split
      · exact Option.some_ne_none _
      · split <;> exact Option.some_ne_none _

/-- What comes next is out of place at the end of the path: the full row says nothing before it, or
nothing that can be read goes on with it. -/
def Refuses (g : Grammar α) (ss : List Nat) (t : Terminal) : Prop :=
  (∀ n ∈ ss.head?, g.fullAction? n t = none) ∨ ¬g.Awaits ss t

/-- Before a terminal that is out of place, a row neither reads nor accepts. -/
theorem Refuses.decide (hg : g.Closed) (hproductive : g.Productive) {row : Row} {a : Action}
    (h : g.Refuses (n :: ss) t) (hpath : g.Path (n :: ss) ys) (hrow : g.tables.row? n = some row)
    (hdecide : row.decide t = some a) : ∃ k, a = .reduce k := by
  rcases h with hnone | hnot
  · rw [decide_eq_fullAction? hrow, hnone n rfl, Option.none_or] at hdecide
    obtain ⟨k, -, rfl⟩ := Option.map_eq_some_iff.mp hdecide
    exact ⟨k, rfl⟩
  · have hallows := allows_of_decide hrow hdecide
    cases a with
    | reduce k => exact ⟨k, rfl⟩
    | shift m => exact (hnot (awaits_of_edge hg hproductive hpath hallows)).elim
    | accept =>
      obtain ⟨rfl, hhas⟩ := hallows
      exact (hnot (awaits_of_accept hg hproductive hpath hhas)).elim

/-- A terminal that is out of place still is when a rule has been completed. -/
theorem Refuses.reduce (hg : g.Closed) {y : Nat} {below : List Nat}
    (h : g.Refuses (n :: ss) t) (hpath : g.Path (n :: ss) ys) (hrule : g.rules[k]? = some p)
    (hi : g.Has n ⟨k, p.rhs.length⟩) (hbelow : (n :: ss).drop p.rhs.length = y :: below)
    (he : g.Edge y (.nonterminal p.lhs) m) : g.Refuses (m :: y :: below) t := by
  refine Or.inr fun hawaits ↦ ?_
  have hfollows := hpath.follows_of_reduce hg hrule hi hbelow he hawaits
  rcases h with hnone | hnot
  · exact hfollows.fullAction?_ne_none hg hrule (hnone n rfl)
  · exact hnot (hfollows.awaits_of_done hrule)

end PlainLedger.Grammar
