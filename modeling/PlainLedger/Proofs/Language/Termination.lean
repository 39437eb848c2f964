import Mathlib
import PlainLedger.Proofs.Language.Between
import PlainLedger.Proofs.Machine.Recoveries

/-!
# Every parse comes to an end

Symbols have weights: a phrase weighs less than what it is made of, so completing rules makes the
stack lighter. What is written as nothing weighs nothing, and there is no end of it only if it could
be put on the stack again and again; but each such phrase leads to a state of a lower rank. Tokens
make the stack heavier, of which there are as many as there are, and recovery leaves a stack of
constant weight.

Each token can be read or skipped once, and there is one recovery before it and one after it. This
bounds how often the machine goes on after an error, and with the weight of the stack it bounds the
number of steps.
-/

namespace PlainLedger.Language

variable {H ε σ ω : Type}

/-! ## Weights -/

/-- The phrases that can be written as nothing, the list of declarations apart. -/
def optionalCategories : List Category :=
  [.txnFields, .optFlag, .keyValueValue, .postingOrKvList, .keyValueList, .currencyList,
    .optBooking, .maybeNumber, .lotCompList]

/-- A phrase weighs less than its parts together. -/
def weight : Symbol → Nat
  | .terminal _ => 4
  | .nonterminal n =>
    match Category.all[n]? with
    | some .file => 0
    | some .declarations => 1
    | some .directive | some .entry | some .position | some .lotComp => 2
    | some c => if c ∈ optionalCategories then 0 else 3
    | none => 3

/-- How many phrases more can be written as nothing after the symbol, or where a text begins. -/
def rank : Option Symbol → Nat
  | none => 5
  | some (.terminal _) => 2
  | some (.nonterminal n) =>
    match Category.all[n]? with
    | some .optBooking => 0
    | some .declarations => 1
    | some c => if c ∈ optionalCategories then 1 else 2
    | none => 2

/-- What completing rules can make of a stack that spells the symbols. -/
def potential (xs : List Symbol) : Nat := 3 * (xs.map weight).sum + rank xs.head?

theorem rank_some_le (x : Symbol) : rank (some x) ≤ 2 := by
  unfold rank
  split
  · contradiction
  · exact le_rfl
  · split <;> first | split | skip
    all_goals omega

theorem weight_terminal (t : Terminal) : weight (.terminal t) = 4 := rfl

/-- The symbol that the item's mark stands after. -/
def lastRead (i : Item) : Option Symbol :=
  match i.dot with
  | 0 => none
  | d + 1 => (grammar.rhs i.rule)[d]?

theorem weight_lt_of_rule {k : Nat} {p : Rule Production} (h : grammar.rules[k]? = some p)
    (hp : p.rhs ≠ []) : weight (.nonterminal p.lhs) < (p.rhs.map weight).sum := by
  have hall : ∀ p ∈ grammar.rules, p.rhs ≠ [] →
      weight (.nonterminal p.lhs) < (p.rhs.map weight).sum := by decide +kernel
  exact hall p (List.mem_of_getElem? h) hp

/-- The phrase can be written as nothing. -/
def Vanishes (x : Symbol) : Prop := ∃ p ∈ grammar.rules, p.rhs = [] ∧ x = .nonterminal p.lhs

instance (x : Symbol) : Decidable (Vanishes x) := by
  unfold Vanishes
  infer_instance

theorem rank_lt_of_edge {n m : Nat} {x : Symbol} (h : grammar.Edge n x m) (hx : Vanishes x)
    {i : Item} (hi : grammar.KernelHas n i) :
    3 * weight x + rank (some x) < rank (lastRead i) := by
  have hall : ∀ s ∈ grammar.states, ∀ e ∈ s.edges, Vanishes e.1 → ∀ i ∈ s.kernel,
      3 * weight e.1 + rank (some e.1) < rank (lastRead i) := by
    rw [states_eq]
    decide +kernel
  obtain ⟨s, hs, htarget⟩ := h
  obtain ⟨s', hs', hmem⟩ := hi
  cases Option.some.inj (hs.symm.trans hs')
  obtain ⟨l₁, l₂, hedges, -⟩ := List.lookup_eq_some_iff.mp htarget
  have hedge : (x, m) ∈ s.edges := by
    rw [hedges]
    exact List.mem_append_right _ (List.mem_cons_self ..)
  exact hall s (List.mem_of_getElem? hs) (x, m) hedge hx i hmem

/-- The last symbol of a path can be read off the kernel that it leads to. -/
theorem lastRead_eq {n : Nat} {ns : List Nat} {xs : List Symbol} (h : grammar.Path (n :: ns) xs) :
    ∃ i, grammar.KernelHas n i ∧ lastRead i = xs.head? := by
  cases h with
  | start => exact ⟨_, Grammar.kernelHas_start_iff.mpr rfl, rfl⟩
  | step _ he =>
    obtain ⟨i, -, -, hi⟩ := Grammar.exists_kernelHas_of_edge he
    obtain ⟨d, hd, hx⟩ := Grammar.symbol_eq_of_kernelHas he hi
    refine ⟨_, hi, ?_⟩
    rw [lastRead, hd]
    exact hx

/-- Completing a rule lowers the potential. -/
theorem potential_reduce {V : Type} {T : Symbol → V → Prop} {x y : Slot V}
    {rest below : List (Slot V)} {xs : List Symbol} {k n : Nat} {p : Rule Production}
    (hs : Spelled grammar T (x :: rest) xs) (hrule : grammar.rules[k]? = some p)
    (htake : (xs.take p.rhs.length).reverse = p.rhs)
    (hbelow : (x :: rest).drop p.rhs.length = y :: below)
    (hedge : grammar.Edge y.state (.nonterminal p.lhs) n) :
    potential (.nonterminal p.lhs :: xs.drop p.rhs.length) < potential xs := by
  by_cases hp : p.rhs = []
  · rw [hp] at hbelow ⊢
    cases hbelow
    have hpath := hs.path
    rw [List.map_cons] at hpath
    obtain ⟨i, hi, hlast⟩ := lastRead_eq hpath
    have hrank := rank_lt_of_edge hedge
      ⟨p, List.mem_of_getElem? hrule, hp, rfl⟩ hi
    rw [hlast] at hrank
    simp only [potential, List.length_nil, List.drop_zero, List.map_cons, List.sum_cons,
      List.head?_cons]
    omega
  · have hweight := weight_lt_of_rule hrule hp
    have hrhs : (p.rhs.map weight).sum = ((xs.take p.rhs.length).map weight).sum := by
      conv_lhs => rw [← htake]
      rw [List.map_reverse, List.sum_reverse]
    have hsum := congrArg (fun l ↦ (l.map weight).sum) (List.take_append_drop p.rhs.length xs)
    simp only [List.map_append, List.sum_append] at hsum
    have hrank := rank_some_le (.nonterminal p.lhs)
    simp only [potential, List.map_cons, List.sum_cons, List.head?_cons]
    omega

/-! ## Steps -/

section Steps

variable {i : Interpretation H ε σ ω} {ctx : Context} {options : Options}
  {c c' : Config (Value H) (Session σ)}

/-- Nothing but declarations has been put together since the last recovery. -/
def Rested (options : Options) (c : Config (Value H) (Session σ)) : Prop :=
  c.quiet = options.recoveryShifts ∧
    ∃ x rest, c.stack.slots = x :: rest ∧ AtDeclaration x.state

/-- At most `a` times more is a token shifted or text skipped. Each token can be read or skipped
once, and there is one recovery before it and one after it. -/
def Due (options : Options) (a : Nat) (c : Config (Value H) (Session σ)) : Prop :=
  a = 2 * c.pending.length + 1 ∨ Rested options c ∧ a = 2 * c.pending.length

theorem due_of_recovers {slots : List (Slot (Value H))} {pending : List Token}
    {s : Session σ} {xs : List Symbol}
    (h : Config.Recovers (engine ctx options) (reducer i ctx) slots pending s (.running c'))
    (hs : Spelled grammar (fun _ _ ↦ True) slots xs) :
    Due options (2 * pending.length) c' ∧ ∃ xs',
      Spelled grammar (fun _ _ ↦ True) c'.stack.slots xs' ∧ potential xs' = 17 := by
  obtain ⟨above, ds, bottom, z, -, -, hz, -, hslots', hedge, hds⟩ := resume_above h hs
  cases h with
  | resume _ _ _ _ hpending hquiet _ =>
    have hrested : Rested options c' := ⟨hquiet, z, _, hslots', Or.inr (Or.inr hz)⟩
    refine ⟨Or.inr ⟨hrested, by rw [hpending]⟩,
      [.terminal .error, Category.declarations.symbol], ?_, by decide⟩
    rw [hslots']
    exact hds.push hedge trivial

/-- A completed rule is due neither to a token nor to an error, and makes the stack lighter;
everything else brings the end of the text nearer. -/
theorem due_of_moves {a : Nat} {xs : List Symbol}
    (h : Config.Moves (engine ctx options) (reducer i ctx) c (.running c'))
    (hstep : c.step (engine ctx options) (reducer i ctx) = .running c')
    (hs : Spelled grammar (fun _ _ ↦ True) c.stack.slots xs) (hdue : Due options a c) :
    ∃ a' xs', Due options a' c' ∧ Spelled grammar (fun _ _ ↦ True) c'.stack.slots xs' ∧
      (a' = a ∧ potential xs' < potential xs ∧ c'.recoveries = c.recoveries ∨
        a' < a ∧ potential xs' ≤ potential xs + 17) := by
  cases h with
  | @shift x rest row t ts n _ v m hslots hrow hpending hdecide _ hslots' hpending' _ _ _ =>
    rw [hslots] at hs
    have hedge : grammar.Edge x.state (.terminal t.kind) n :=
      Config.edge_of_shift tables_engine hrow hdecide
    have hpotential : potential (.terminal t.kind :: xs) ≤ potential xs + 14 := by
      simp only [potential, List.map_cons, List.sum_cons, List.head?_cons, weight_terminal]
      have := rank_some_le (.terminal t.kind)
      omega
    rw [Due, hpending, List.length_cons] at hdue
    refine ⟨2 * ts.length + 1, .terminal t.kind :: xs, Or.inl (by rw [hpending']), ?_,
      Or.inr ⟨by omega, by omega⟩⟩
    rw [hslots']
    exact hs.push hedge trivial
  | @reduce x y rest below row row' k n p v _ _ hslots hrow hdecide hrule hbelow hrow' hgoto
      hverdict hslots' hpending _ hquiet _ =>
    rw [hslots] at hs
    have hedge : grammar.Edge y.state (.nonterminal p.lhs) n :=
      Config.edge_of_goto? tables_engine hrow' hgoto
    obtain ⟨⟨-, htake⟩, -, -, hs'⟩ := hs.of_decide hrow hdecide hrule hbelow
    have hlt := potential_reduce hs hrule htake hbelow hedge
    have hrecoveries := Config.recoveries_step_of_value hslots hrow hdecide hrule hverdict
    rw [hstep] at hrecoveries
    refine ⟨a, .nonterminal p.lhs :: xs.drop p.rhs.length, ?_, ?_,
      Or.inl ⟨rfl, hlt, hrecoveries⟩⟩
    · rcases hdue with ha | ⟨⟨hq, x', rest', hslots'', hx⟩, ha⟩
      · exact Or.inl (by rw [ha, hpending])
      · cases hslots.symm.trans hslots''
        have hrested : Rested options c' := by
          refine ⟨hquiet.trans hq, _, _, hslots', ?_⟩
          rcases lhs_of_atDeclaration hs hx hrow hdecide hrule hbelow hedge with
            ⟨-, -, hn⟩ | ⟨-, hn⟩
          · exact Or.inl hn
          · exact Or.inr (Or.inl hn)
        exact Or.inr ⟨hrested, by rw [ha, hpending]⟩
    · rw [hslots']
      exact hs'.push hedge trivial
  | @reject x y rest below row k p message s d _ hslots hrow hdecide hrule hbelow hverdict _
      hrecover =>
    rw [hslots] at hs
    obtain ⟨-, -, hpredicted, hs'⟩ := hs.of_decide hrow hdecide hrule hbelow
    obtain ⟨n, hedge⟩ := Grammar.exists_goto hpredicted hrule
    rcases hdue with ha | ⟨⟨-, x', rest', hslots'', hx⟩, -⟩
    · obtain ⟨hdue', xs', hxs', h17⟩ := due_of_recovers hrecover hs'
      exact ⟨_, xs', hdue', hxs', Or.inr ⟨by omega, by omega⟩⟩
    · cases hslots.symm.trans hslots''
      have hgathers := (declarationRule hrule).gathers
      have hlhs := lhs_of_atDeclaration hs hx hrow hdecide hrule hbelow hedge
      have hkeep := hgathers (hlhs.imp And.left And.left)
      exact (not_rejected_of_gathers i ctx hkeep _ _ message (congrArg Prod.fst hverdict)).elim
  | @skip x rest row t ts _ _ hslots _ _ hpending _ _ hrecover =>
    rw [hslots] at hs
    rw [Due, hpending, List.length_cons] at hdue
    obtain ⟨hdue', xs', hxs', h17⟩ := due_of_recovers hrecover hs
    exact ⟨_, xs', hdue', hxs', Or.inr ⟨by omega, by omega⟩⟩
  | fail hslots _ _ hquiet _ hrecover =>
    rw [hslots] at hs
    rcases hdue with ha | ⟨⟨hq, -⟩, -⟩
    · obtain ⟨hdue', xs', hxs', h17⟩ := due_of_recovers hrecover hs
      exact ⟨_, xs', hdue', hxs', Or.inr ⟨by omega, by omega⟩⟩
    · exact (hquiet hq).elim

/-- At most `m` steps are left, and the machine goes on after an error `n` times at most, counted
from the beginning of the run. -/
def Bounded (options : Options) (n m : Nat) (c : Config (Value H) (Session σ)) : Prop :=
  ∃ a xs, Due options a c ∧ Spelled grammar (fun _ _ ↦ True) c.stack.slots xs ∧
    20 * a + potential xs ≤ m ∧ c.recoveries + a ≤ n

end Steps

/-- Every step leaves fewer steps. -/
theorem post_step_bounded {i : Interpretation H ε σ ω} {ctx : Context} {options : Options}
    {n m : Nat} {c : Config (Value H) (Session σ)} (hb : Bounded options n m c) :
    (c.step (engine ctx options) (reducer i ctx)).Post
      (fun c' ↦ ∃ m' < m, Bounded options n m' c') (fun _ c' ↦ c'.recoveries ≤ n + 1)
      (fun _ c' ↦ c'.recoveries ≤ n + 1) := by
  obtain ⟨a, xs, hdue, hs, hm, hn⟩ := hb
  obtain ⟨x, rest, hslots⟩ := List.exists_cons_of_ne_nil hs.ne_nil
  have hpath := hs.path
  rw [hslots, List.map_cons] at hpath
  obtain ⟨row, hrow⟩ := Grammar.exists_row hpath.exists_state.choose_spec
  have hle := Config.recoveries_step_le (engine ctx options) (reducer i ctx) hslots hrow
  have hmoves := Config.moves_step (e := engine ctx options) (r := reducer i ctx)
    tables_engine (fun _ _ ↦ not_edge_end) hs.path
  cases hstep : c.step (engine ctx options) (reducer i ctx) with
  | running c' =>
    rw [hstep] at hmoves hle
    rw [Step.config] at hle
    obtain ⟨a', xs', hdue', hs', ⟨ha, hlt, heq⟩ | ⟨ha, hlt⟩⟩ := due_of_moves hmoves hstep hs hdue
    · exact ⟨20 * a' + potential xs', by omega, a', xs', hdue', hs', le_rfl, by omega⟩
    · exact ⟨20 * a' + potential xs', by omega, a', xs', hdue', hs', le_rfl, by omega⟩
  | accepted v c' =>
    rw [hstep, Step.config] at hle
    exact hle.trans (by omega)
  | aborted cause c' =>
    rw [hstep, Step.config] at hle
    exact hle.trans (by omega)

theorem post_start_bounded (i : Interpretation H ε σ ω) (ctx : Context) (options : Options)
    (tokens : List Token) (state : σ) :
    ((engine ctx options).start (reducer i ctx) tokens ⟨state, #[]⟩).Post
      (fun c ↦ c.recoveries = 0 →
        Bounded options (2 * tokens.length + 1) (40 * tokens.length + 25) c)
      (fun _ _ ↦ True) (fun _ _ ↦ True) := by
  refine Engine.post_start _ _ ?_ (fun _ _ _ ↦ trivial)
  intro c hslots hahead hinput hexhausted _ _ hrecoveries
  have hlength : c.pending.length ≤ tokens.length := by
    simpa [Config.pending, hahead, hinput, hexhausted] using
      (List.takeWhile_sublist _).length_le
  have hpotential : potential [] = 5 := rfl
  refine ⟨2 * c.pending.length + 1, [], Or.inl rfl, ?_, by omega, by omega⟩
  rw [hslots]
  exact .bottom rfl

/-- After so many steps a run has come to its end. -/
theorem post_steps_bounded (i : Interpretation H ε σ ω) (ctx : Context) (options : Options)
    (tokens : List Token) (state : σ) {n : Nat} (hn : 40 * tokens.length + 25 < n) :
    ((engine ctx options).steps (reducer i ctx) n
      ((engine ctx options).start (reducer i ctx) tokens ⟨state, #[]⟩)).Post (fun _ ↦ False)
      (fun _ c ↦ c.recoveries ≤ 2 * tokens.length + 2)
      (fun _ c ↦ c.recoveries ≤ 2 * tokens.length + 2) := by
  have hstart := post_start_bounded i ctx options tokens state
  have hzero := (engine ctx options).recoveries_start (reducer i ctx) tokens ⟨state, #[]⟩
  cases hfirst : (engine ctx options).start (reducer i ctx) tokens ⟨state, #[]⟩ with
  | running c =>
    rw [hfirst] at hstart hzero
    exact Engine.post_steps_of_measure (engine ctx options) (reducer i ctx)
      (fun _ _ ↦ post_step_bounded) hn (hstart hzero)
  | accepted v c =>
    rw [hfirst] at hzero
    rw [Engine.steps_accepted]
    exact hzero.le.trans (Nat.zero_le _)
  | aborted cause c =>
    rw [hfirst] at hzero
    rw [Engine.steps_aborted]
    exact hzero.le.trans (Nat.zero_le _)

/-- A parse does not run out of steps. -/
theorem run_ne_unfinished (i : Interpretation H ε σ ω) (ctx : Context) (options : Options)
    (tokens : List Token) (state : σ) :
    (run i ctx options tokens state).1 ≠ .unfinished := by
  have hbudget : 40 * tokens.length + 25 < stepBudget tokens.length := by
    unfold stepBudget
    omega
  refine Engine.finish_ne_unfinished _ _ ?_
  exact (post_steps_bounded i ctx options tokens state hbudget).imp (fun _ h ↦ h)
    (fun _ _ _ ↦ trivial) (fun _ _ _ ↦ trivial)

/-- Whatever the tokens, and whatever the interpretation refuses, the machine comes to the end of
its run: a text of `n` tokens takes it no more than `40 * n + 26` steps, and it goes on after an
error no more than `2 * n + 2` times. -/
theorem run_ends (i : Interpretation H ε σ ω) (ctx : Context) (options : Options)
    (tokens : List Token) (state : σ) (spare : Nat) :
    ((engine ctx options).run (reducer i ctx) (40 * tokens.length + 26 + spare) tokens
        ⟨state, #[]⟩).1 ≠ .unfinished ∧
      ((engine ctx options).run (reducer i ctx) (40 * tokens.length + 26 + spare) tokens
        ⟨state, #[]⟩).2.recoveries ≤ 2 * tokens.length + 2 := by
  have hsteps := post_steps_bounded i ctx options tokens state
    (n := 40 * tokens.length + 26 + spare) (by omega)
  unfold Engine.run
  constructor
  · apply Engine.finish_ne_unfinished
    exact hsteps.imp (fun _ h ↦ h) (fun _ _ _ ↦ trivial) (fun _ _ _ ↦ trivial)
  · rw [Engine.recoveries_finish]
    cases hlast : (engine ctx options).steps (reducer i ctx) (40 * tokens.length + 26 + spare)
        ((engine ctx options).start (reducer i ctx) tokens ⟨state, #[]⟩) with
    | running c =>
      rw [hlast] at hsteps
      exact hsteps.elim
    | accepted v c =>
      rw [hlast] at hsteps
      exact hsteps
    | aborted cause c =>
      rw [hlast] at hsteps
      exact hsteps

end PlainLedger.Language
