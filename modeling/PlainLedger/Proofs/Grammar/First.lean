import PlainLedger.Grammar.Sweep
import PlainLedger.Proofs.Grammar.Flow

/-!
# What can stand first

The flows say no more and no less than the derivations: a nonterminal lets through what follows it
exactly if it derives the empty text, and generates exactly the terminals that something derived
from it begins with. A table that has room for every rule holds all of this, and a table that grows
by what its rules give never holds anything else. Both are true of the table that the sweeps over
the rules leave behind, which is why they end with the flows.
-/

namespace PlainLedger

section Growing

variable {β γ : Type} {R : β → β → Prop} {size : β → Nat}

theorem Grows.antisymm (h : Grows R size) {x y : β} (hxy : R x y) (hyx : R y x) : x = y := by
  rcases h x y hxy with heq | hlt
  · exact heq
  · exact absurd (h.le hyx) (by omega)

/-- A step that lets a bounded list grow leads to a list that it does not change. -/
theorem exists_untilStill_of_grows [DecidableEq β] {step : List β → List β} {P : List β → Prop}
    {bound : Nat} {xs : List β} (hsize : Grows R size) (hstep : ∀ xs, P xs → P (step xs))
    (hgrows : ∀ xs, P xs → List.Forall₂ R xs (step xs))
    (hbound : ∀ xs, P xs → (xs.map size).sum ≤ bound) (hxs : P xs) :
    ∃ ys, untilStill step xs = .some ys ∧ P ys ∧ step ys = ys :=
  exists_untilStill hstep hbound (fun xs h hne ↦ hsize.list.lt (hgrows xs h) hne) hxs

/-- Where every step goes up, so do all of them together, and each starts and ends in between. -/
theorem foldl_between (hrefl : ∀ b, R b b) (htrans : ∀ {a b c}, R a b → R b c → R a c)
    {f : β → γ → β} (xs : List γ) (hf : ∀ b, ∀ x ∈ xs, R b (f b x)) (b : β) :
    R b (xs.foldl f b) ∧ ∀ x ∈ xs, ∃ c, R b c ∧ R (f c x) (xs.foldl f b) := by
  induction xs generalizing b with
  | nil => exact ⟨hrefl b, by simp⟩
  | cons x xs ih =>
    have hx := hf b x (List.mem_cons_self ..)
    obtain ⟨hall, heach⟩ := ih (fun c y hy ↦ hf c y (List.mem_cons_of_mem x hy)) (f b x)
    constructor
    · exact htrans hx hall
    · intro y hy
      rcases List.mem_cons.mp hy with rfl | hy
      · exact ⟨b, hrefl b, hall⟩
      · obtain ⟨c, hc, hfinal⟩ := heach y hy
        exact ⟨c, htrans hx hc, hfinal⟩

end Growing

namespace FlowTable

theorem ofSymbols_append (table : FlowTable) (xs ys : List Symbol) :
    table.ofSymbols (xs ++ ys) = (table.ofSymbols xs).andThen (table.ofSymbols ys) := by
  induction xs with
  | nil => simp [Flow.through_andThen]
  | cons x xs ih => simp [ih, Flow.andThen_assoc]

theorem ofSymbols_singleton (table : FlowTable) (x : Symbol) :
    table.ofSymbols [x] = table.ofSymbol x := by
  rw [ofSymbols_cons, ofSymbols_nil, Flow.andThen_through]

/-- One table has as many flows as another, and each has room for the other's. -/
structure Within (table table' : FlowTable) : Prop where
  length_eq : table.length = table'.length
  getD (n : Nat) : (table.getD n .never).Within (table'.getD n .never)

variable {table table' table'' : FlowTable}

theorem Within.refl (table : FlowTable) : table.Within table := ⟨rfl, fun _ ↦ .refl _⟩

theorem Within.trans (h : table.Within table') (h' : table'.Within table'') :
    table.Within table'' :=
  ⟨h.length_eq.trans h'.length_eq, fun n ↦ (h.getD n).trans (h'.getD n)⟩

theorem Within.ofSymbols (h : table.Within table') (xs : List Symbol) :
    (table.ofSymbols xs).Within (table'.ofSymbols xs) := by
  induction xs with
  | nil => exact .refl _
  | cons x xs ih =>
    rw [ofSymbols_cons, ofSymbols_cons]
    cases x with
    | terminal t => exact .andThen (.refl _) ih
    | nonterminal n => exact .andThen (h.getD n) ih

theorem Within.forall₂ (h : table.Within table') (hp : table.Proper) (hp' : table'.Proper) :
    List.Forall₂ (fun f g : Flow ↦ f.Proper ∧ g.Proper ∧ f.Within g) table table' := by
  refine List.forall₂_iff_get.mpr ⟨h.length_eq, fun n hn hn' ↦ ?_⟩
  have hwithin := h.getD n
  rw [List.getD_eq_getElem?_getD, List.getD_eq_getElem?_getD, List.getElem?_eq_getElem hn,
    List.getElem?_eq_getElem hn'] at hwithin
  exact ⟨hp _ (List.getElem_mem hn), hp' _ (List.getElem_mem hn'), hwithin⟩

theorem Within.antisymm (h : table.Within table') (h' : table'.Within table) (hp : table.Proper)
    (hp' : table'.Proper) : table = table' :=
  Flow.grows_within.list.antisymm (h.forall₂ hp hp') (h'.forall₂ hp' hp)

/-! ## Adding to a table -/

section Add

variable (table) (n : Nat) (f : Flow)

@[simp] theorem length_add : (table.add n f).length = table.length := List.length_modify ..

theorem getD_add (m : Nat) : (table.add n f).getD m .never =
    if n = m ∧ m < table.length then (table.getD m .never).join f else table.getD m .never := by
  by_cases hm : m < table.length
  · by_cases hn : n = m <;> simp [add, hm, hn]
  · simp [add, hm]

theorem within_add : table.Within (table.add n f) := by
  constructor
  · exact (table.length_add n f).symm
  · intro m
    rw [getD_add]
    split
    · exact Flow.within_join_left ..
    · exact .refl _

variable {table n f}

theorem within_getD_add (hn : n < table.length) : f.Within ((table.add n f).getD n .never) := by
  rw [getD_add, if_pos ⟨rfl, hn⟩]
  exact Flow.within_join_right ..

theorem Proper.add (h : table.Proper) (hf : f.Proper) : (table.add n f).Proper := by
  intro h' hmem
  obtain ⟨m, hm⟩ := List.mem_iff_getElem?.mp hmem
  have hget : (table.add n f).getD m .never = h' := by simp [hm]
  rw [← hget, getD_add]
  split
  · exact (h.getD m).join hf
  · exact h.getD m

end Add

section Visit

variable {α : Type} (r : Rule α)

theorem within_visit (table : FlowTable) : table.Within (table.visit r) :=
  (within_add ..).trans (within_add ..)

/-- After the visit there is room for what the rule gave before. -/
theorem within_getD_visit {r : Rule α} (hr : r.lhs < table.length) :
    (table.ofSymbols r.rhs).Within ((table.visit r).getD r.lhs .never) := by
  set passed := table.add r.lhs ⟨.empty, (table.ofSymbols r.rhs).passes⟩ with hpassed
  have hmore : (table.ofSymbols r.rhs).Within (passed.ofSymbols r.rhs) :=
    (within_add ..).ofSymbols r.rhs
  have hlast := within_add passed r.lhs ⟨(passed.ofSymbols r.rhs).generated, false⟩
  constructor
  · intro t ht
    have hlt : r.lhs < passed.length := by rwa [hpassed, length_add]
    exact (within_getD_add hlt).1 t (hmore.1 t ht)
  · intro hp
    exact (hlast.getD r.lhs).2 ((within_getD_add hr).2 hp)

theorem Proper.visit {r : Rule α} (h : table.Proper) : (table.visit r).Proper := by
  have hpassed : (table.add r.lhs ⟨.empty, (table.ofSymbols r.rhs).passes⟩).Proper :=
    h.add TerminalSet.proper_empty
  exact hpassed.add (hpassed.ofSymbols r.rhs)

end Visit

end FlowTable

/-! ## Sweeps -/

namespace Draft

variable {α : Type} (d : Draft α)

theorem within_sweep (table : FlowTable) : table.Within (d.sweep table) ∧
    ∀ r ∈ d.rules, ∃ between, table.Within between ∧ (between.visit r).Within (d.sweep table) :=
  foldl_between FlowTable.Within.refl (fun h h' ↦ h.trans h') d.rules
    (fun table r _ ↦ FlowTable.within_visit r table) table

theorem proper_sweep {table : FlowTable} (h : table.Proper) : (d.sweep table).Proper :=
  List.foldlRecOn d.rules FlowTable.visit h fun _ h _ _ ↦ h.visit

/-- What each rule gives is in the table already. -/
def Solves (table : FlowTable) : Prop :=
  ∀ r ∈ d.rules, (table.ofSymbols r.rhs).Within (table.getD r.lhs .never)

variable {d}

theorem solves_flows (hd : d.Closed) : d.Solves d.flows := fun _ hr ↦ within_flows hd hr

/-- A sweep that adds nothing finds room for every rule. -/
theorem solves_of_sweep_eq (hd : d.Closed) {table : FlowTable}
    (hlength : table.length = d.names.length) (h : d.sweep table = table) : d.Solves table := by
  intro r hr
  obtain ⟨between, hbefore, hafter⟩ := (d.within_sweep table).2 r hr
  rw [h] at hafter
  have hlt : r.lhs < between.length := by
    rw [← hbefore.length_eq, hlength]
    exact (hd r hr).1
  have hgiven := (hbefore.ofSymbols r.rhs).trans (FlowTable.within_getD_visit hlt)
  exact hgiven.trans (hafter.getD r.lhs)

end Draft

/-! ## What the derivations say -/

namespace Grammar

variable {α : Type} {g : Grammar α} {table : FlowTable}

/-- Something that begins with the terminal can be derived. -/
def Opens (g : Grammar α) (xs : List Symbol) (t : Terminal) : Prop :=
  ∃ ys, g.Derives xs (.terminal t :: ys)

/-- What the flow says about the symbols can be derived from them. -/
structure Supported (g : Grammar α) (xs : List Symbol) (f : Flow) : Prop where
  opens : ∀ t ∈ f.generated, g.Opens xs t
  vanishes : f.passes = true → g.Derives xs []

theorem supported_never (xs : List Symbol) : g.Supported xs .never where
  opens t ht := by simp [Flow.never] at ht
  vanishes h := by simp [Flow.never] at h

theorem Supported.join {xs : List Symbol} {f f' : Flow} (h : g.Supported xs f)
    (h' : g.Supported xs f') : g.Supported xs (f.join f') where
  opens t ht := (Flow.mem_generated_join.mp ht).elim (h.opens t) (h'.opens t)
  vanishes hp := by
    rw [Flow.passes_join, Bool.or_eq_true] at hp
    exact hp.elim h.vanishes h'.vanishes

theorem Supported.andThen {xs ys : List Symbol} {f f' : Flow} (h : g.Supported xs f)
    (h' : g.Supported ys f') : g.Supported (xs ++ ys) (f.andThen f') where
  opens t ht := by
    rcases Flow.mem_generated_andThen.mp ht with ht | ⟨hp, ht⟩
    · obtain ⟨zs, hzs⟩ := h.opens t ht
      exact ⟨zs ++ ys, hzs.append [] ys⟩
    · obtain ⟨zs, hzs⟩ := h'.opens t ht
      have hfirst : g.Derives (xs ++ ys) ys := (h.vanishes hp).append [] ys
      exact ⟨zs, hfirst.trans hzs⟩
  vanishes hp := by
    rw [Flow.passes_andThen, Bool.and_eq_true] at hp
    have hfirst : g.Derives (xs ++ ys) ys := (h.vanishes hp.1).append [] ys
    exact hfirst.trans (h'.vanishes hp.2)

theorem Supported.of_derives {xs ys : List Symbol} {f : Flow} (h : g.Supported ys f)
    (hxs : g.Derives xs ys) : g.Supported xs f where
  opens t ht := (h.opens t ht).imp fun _ hzs ↦ hxs.trans hzs
  vanishes hp := hxs.trans (h.vanishes hp)

/-- The table says nothing about a nonterminal that cannot be derived from it. -/
def Supports (g : Grammar α) (table : FlowTable) : Prop :=
  ∀ n, g.Supported [.nonterminal n] (table.getD n .never)

theorem supports_replicate (n : Nat) : g.Supports (List.replicate n .never) := by
  intro m
  rw [List.getD_eq_getElem?_getD, List.getElem?_replicate]
  split <;> exact supported_never _

theorem Supports.ofSymbols (h : g.Supports table) (xs : List Symbol) :
    g.Supported xs (table.ofSymbols xs) := by
  induction xs with
  | nil => exact ⟨fun t ht ↦ by simp [Flow.through] at ht, fun _ ↦ .refl⟩
  | cons x xs ih =>
    have hx : g.Supported [x] (table.ofSymbol x) := by
      cases x with
      | terminal t =>
        constructor
        · intro u hu
          rw [TerminalSet.mem_singleton.mp hu]
          exact ⟨[], .refl⟩
        · intro hp
          simp [FlowTable.ofSymbol, Flow.ofTerminal] at hp
      | nonterminal n => exact h n
    exact hx.andThen ih

/-- What a rule gives can be derived from its left-hand side. -/
theorem Supports.of_rule (h : g.Supports table) {r : Rule α} (hr : r ∈ g.rules) :
    g.Supported [.nonterminal r.lhs] (table.ofSymbols r.rhs) := by
  obtain ⟨k, hk⟩ := List.mem_iff_getElem?.mp hr
  exact (h.ofSymbols r.rhs).of_derives (.single (produces_rhs hk))

theorem Supports.add (h : g.Supports table) {n : Nat} {f : Flow}
    (hf : g.Supported [.nonterminal n] f) : g.Supports (table.add n f) := by
  intro m
  rw [FlowTable.getD_add]
  split
  · rename_i hm
    exact (h m).join (hm.1 ▸ hf)
  · exact h m

theorem Supports.visit (h : g.Supports table) {r : Rule α} (hr : r ∈ g.rules) :
    g.Supports (table.visit r) := by
  have hpassed : g.Supports (table.add r.lhs ⟨.empty, (table.ofSymbols r.rhs).passes⟩) := by
    apply h.add
    constructor
    · exact fun t ht ↦ (TerminalSet.not_mem_empty t ht).elim
    · exact (h.of_rule hr).vanishes
  apply hpassed.add
  constructor
  · exact (hpassed.of_rule hr).opens
  · exact fun hp ↦ absurd hp Bool.false_ne_true

theorem Supports.sweep (h : g.Supports table) : g.Supports (g.sweep table) :=
  List.foldlRecOn g.rules FlowTable.visit h fun _ h _ hr ↦ h.visit hr

theorem Supports.improve (h : g.Supports table) : g.Supports (g.improve table) := by
  intro n
  rw [List.getD_eq_getElem?_getD]
  cases hn : table[n]? with
  | none =>
    have hlength : table.length ≤ n := List.getElem?_eq_none_iff.mp hn
    rw [List.getElem?_eq_none (by rwa [g.length_improve])]
    exact supported_never _
  | some f =>
    have hf : g.Supported [.nonterminal n] f := by
      simpa [List.getD_eq_getElem?_getD, hn] using h n
    rw [g.getElem?_improve hn, Option.getD_some]
    apply Flow.foldl_join_induction (fun r : Rule α ↦ table.ofSymbols r.rhs) _ (fun _ _ ↦ .join) hf
    intro r hr
    obtain ⟨hmem, hlhs⟩ := List.mem_filter.mp hr
    rw [← beq_iff_eq.mp hlhs]
    exact h.of_rule hmem

theorem supports_flows : g.Supports g.flows :=
  settle_induction (fun _ h ↦ h.improve) _ (supports_replicate _)

/-! ## Both say the same -/

section Exact

variable {xs : List Symbol}

theorem within_of_derives (hsolves : g.Solves table) {ys : List Symbol} (h : g.Derives xs ys) :
    (table.ofSymbols ys).Within (table.ofSymbols xs) := by
  induction h with
  | refl => exact .refl _
  | tail _ hstep ih =>
    refine .trans ?_ ih
    cases hstep with
    | rule hk us vs =>
      simp only [FlowTable.ofSymbols_append, FlowTable.ofSymbols_cons, Flow.andThen_assoc]
      exact .andThen (.refl _) (.andThen (hsolves _ (List.mem_of_getElem? hk)) (.refl _))

theorem mem_generated_of_opens (hsolves : g.Solves table) {t : Terminal} (h : g.Opens xs t) :
    t ∈ (table.ofSymbols xs).generated := by
  obtain ⟨ys, hys⟩ := h
  apply (within_of_derives hsolves hys).1
  rw [FlowTable.ofSymbols_cons, Flow.mem_generated_andThen]
  exact Or.inl (TerminalSet.mem_singleton.mpr rfl)

/-- A table with room for every rule has room for whatever can be derived. -/
theorem Supported.within {f : Flow} (h : g.Supported xs f) (hsolves : g.Solves table) :
    f.Within (table.ofSymbols xs) := by
  constructor
  · exact fun t ht ↦ mem_generated_of_opens hsolves (h.opens t ht)
  · exact fun hp ↦ (within_of_derives hsolves (h.vanishes hp)).2 rfl

theorem Supports.within (h : g.Supports table) {table' : FlowTable} (hsolves : g.Solves table')
    (hlength : table.length = table'.length) : table.Within table' := by
  refine ⟨hlength, fun n ↦ ?_⟩
  have hwithin := (h n).within hsolves
  rwa [FlowTable.ofSymbols_singleton] at hwithin

theorem mem_generated_flows (hg : g.Closed) {t : Terminal} :
    t ∈ (g.flows.ofSymbols xs).generated ↔ g.Opens xs t := by
  constructor
  · exact (supports_flows.ofSymbols xs).opens t
  · exact mem_generated_of_opens (Draft.solves_flows hg)

theorem passes_flows (hg : g.Closed) :
    (g.flows.ofSymbols xs).passes = true ↔ g.Derives xs [] := by
  constructor
  · exact (supports_flows.ofSymbols xs).vanishes
  · exact fun h ↦ (within_of_derives (Draft.solves_flows hg) h).2 rfl

end Exact

/-- Each sweep adds a terminal, or emptiness, to the flow of some nonterminal, or is the last. -/
theorem exists_sweeps (g : Grammar α) : ∃ table, g.sweeps = .some table ∧
    (table.length = g.names.length ∧ table.Proper ∧ g.Supports table) ∧ g.sweep table = table := by
  have hbound : ∀ table : FlowTable,
      table.length = g.names.length ∧ table.Proper ∧ g.Supports table →
        (table.map Flow.size).sum ≤ g.names.length * (Terminal.count + 1) := by
    rintro table ⟨hlength, -⟩
    rw [← hlength]
    exact sum_map_le fun f _ ↦ f.size_le
  refine exists_untilStill_of_grows Flow.grows_within ?_ ?_ hbound ?_
  · rintro table ⟨hlength, hproper, hsupports⟩
    rw [← (g.within_sweep table).1.length_eq]
    exact ⟨hlength, g.proper_sweep hproper, hsupports.sweep⟩
  · rintro table ⟨-, hproper, -⟩
    exact (g.within_sweep table).1.forall₂ hproper (g.proper_sweep hproper)
  · refine ⟨List.length_replicate, fun f hf ↦ ?_, supports_replicate _⟩
    rw [(List.mem_replicate.mp hf).2]
    exact TerminalSet.proper_empty

/-- The sweeps come to an end, and what they end with are the flows. -/
theorem sweeps_eq (hg : g.Closed) : g.sweeps = .some g.flows := by
  obtain ⟨table, htable, ⟨hlength, hproper, hsupports⟩, hstill⟩ := g.exists_sweeps
  have hsolves := Draft.solves_of_sweep_eq hg hlength hstill
  have hlengths : table.length = g.flows.length := by rw [hlength, g.length_flows]
  have hle := hsupports.within (Draft.solves_flows hg) hlengths
  have hge := supports_flows.within hsolves hlengths.symm
  rw [← hle.antisymm hge hproper g.proper_flows]
  exact htable

/-- The sweeps come to an end with one flow for each nonterminal. It lets through what follows
exactly if the nonterminal derives the empty text, and generates the terminals that something
derived from the nonterminal begins with. Symbols before a tail can begin with what opens something
derived from them, and with what the tail can begin with if they derive the empty text. -/
theorem sweeps_exact (hg : g.Closed) :
    g.sweeps = .some g.flows ∧ g.flows.length = g.names.length ∧
      (∀ (n : Nat) (f : Flow), g.flows[n]? = some f →
        (f.passes = true ↔ g.Derives [.nonterminal n] []) ∧
          ∀ t, t ∈ f.generated ↔ g.Opens [.nonterminal n] t) ∧
      ∀ (xs : List Symbol) (tail : Flow),
        (∀ t, t ∈ ((g.flows.ofSymbols xs).andThen tail).generated ↔
          g.Opens xs t ∨ g.Derives xs [] ∧ t ∈ tail.generated) ∧
        (((g.flows.ofSymbols xs).andThen tail).passes = true ↔
          g.Derives xs [] ∧ tail.passes = true) := by
  refine ⟨sweeps_eq hg, g.length_flows, ?_, ?_⟩
  · intro n f hf
    have hsymbol : g.flows.ofSymbols [.nonterminal n] = f := by
      rw [FlowTable.ofSymbols_singleton]
      simp [FlowTable.ofSymbol, hf]
    constructor
    · rw [← hsymbol]
      exact passes_flows hg
    · intro t
      rw [← hsymbol]
      exact mem_generated_flows hg
  · intro xs tail
    constructor
    · intro t
      rw [Flow.mem_generated_andThen, mem_generated_flows hg, passes_flows hg]
    · rw [Flow.passes_andThen, Bool.and_eq_true, passes_flows hg]

/-- Numbers in any nesting, with no sign of where a list begins or ends. -/
def nested : Grammar String where
  names := ["list", "item"]
  levels := []
  rules := [⟨0, [], "empty", none⟩,
    ⟨0, [.nonterminal 0, .nonterminal 1], "longer", none⟩,
    ⟨1, [.terminal .number], "number", none⟩,
    ⟨1, [.nonterminal 0], "list", none⟩]
  start := 0
  start_lt := by decide
  rank?_error := by decide
  defined := by decide

theorem sweeps_exact_nested : nested.Closed ∧ nested.sweeps = .some nested.flows ∧
    nested.Derives [.nonterminal 1] [] ∧ ∀ t, nested.Opens [.nonterminal 1] t ↔ t = .number := by
  have hclosed : nested.Closed := by decide
  obtain ⟨hsweeps, -, hflows, -⟩ := sweeps_exact hclosed
  have hitem : nested.flows[1]? = some ⟨.singleton .number, true⟩ := by decide
  obtain ⟨hpasses, hgenerated⟩ := hflows 1 _ hitem
  refine ⟨hclosed, hsweeps, hpasses.mp rfl, fun t ↦ ?_⟩
  rw [← hgenerated t, TerminalSet.mem_singleton]

end Grammar

end PlainLedger
