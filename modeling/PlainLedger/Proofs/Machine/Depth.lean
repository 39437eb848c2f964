import PlainLedger.Proofs.Machine.Capacity

/-!
# How high a stack can be

A grammar whose lists grow to the right needs a deep stack only for what nests. A gauge says of each
state how many slots there can be if nothing nests, and in which states something may nest. If the
gauge is right for every way that the tables lead from state to state, each terminal that nests adds
a fixed number of slots at most. No line ends, and recovery goes on nowhere, while something nests,
so only the terminals of one line add up.
-/

namespace PlainLedger

variable {α V σ : Type}

/-! ## Ways through the tables -/

namespace Row

/-- In a state of the row, the symbol leads to the other state. -/
def LeadsTo (row : Row) (n : Nat) : Symbol → Prop
  | .terminal t => row.decide t = some (.shift n)
  | .nonterminal k => row.goto? k = some n

/-- What leads on from a state of the row, with the state that it leads to. -/
def ways (row : Row) : List (Symbol × Nat) :=
  (row.actions.filterMap fun (t, a) ↦
    match a with
    | .shift n => some (.terminal t, n)
    | _ => none) ++ row.gotos.map fun (k, n) ↦ (.nonterminal k, n)

theorem mem_ways_of_leadsTo {row : Row} {n : Nat} {x : Symbol} (h : row.LeadsTo n x) :
    (x, n) ∈ row.ways := by
  refine List.mem_append.mpr ?_
  cases x with
  | terminal t =>
    rcases Option.or_eq_some_iff.mp h with hlookup | ⟨-, hdefault⟩
    · obtain ⟨l₁, l₂, hactions, -⟩ := List.lookup_eq_some_iff.mp hlookup
      refine Or.inl (List.mem_filterMap.mpr ⟨(t, .shift n), ?_, rfl⟩)
      rw [hactions]
      exact List.mem_append_right _ (List.mem_cons_self ..)
    · obtain ⟨k, -, hk⟩ := Option.map_eq_some_iff.mp hdefault
      cases hk
  | nonterminal k =>
    obtain ⟨l₁, l₂, hgotos, -⟩ := List.lookup_eq_some_iff.mp h
    refine Or.inr (List.mem_map.mpr ⟨(k, n), ?_, rfl⟩)
    rw [hgotos]
    exact List.mem_append_right _ (List.mem_cons_self ..)

theorem leadsTo_error {row : Row} {n : Nat} (h : row.errorShift? = some n) :
    row.LeadsTo n (.terminal .error) := by
  unfold errorShift? at h
  split at h
  · rename_i k hk
    cases h
    simp [LeadsTo, Row.decide, hk]
  · cases h

end Row

/-- States that the tables lead to, one from the other, with the symbols that lead to them; the
topmost comes first. -/
inductive Stacked (e : Engine α) : List Nat → List Symbol → Prop where
  | bottom : Stacked e [0] []
  | push {s n : Nat} {ss : List Nat} {x : Symbol} {xs : List Symbol} {row : Row}
      (h : Stacked e (s :: ss) xs) (hrow : e.row? s = some row) (hx : row.LeadsTo n x) :
      Stacked e (n :: s :: ss) (x :: xs)

namespace Stacked

variable {e : Engine α} {s n : Nat} {ss : List Nat} {x : Symbol} {xs : List Symbol} {row : Row}

theorem path (hg : e.tables = e.grammar.tables) (h : Stacked e ss xs) : e.grammar.Path ss xs := by
  induction h with
  | bottom => exact .start
  | @push s n ss x xs row _ hrow hx ih =>
    refine ih.step ?_
    rw [Engine.row?, hg] at hrow
    cases x with
    | terminal t => exact Grammar.allows_of_decide (a := .shift n) hrow hx
    | nonterminal k => exact (Grammar.goto?_eq_some_iff hrow).mp hx

theorem ne_nil (h : Stacked e ss xs) : ss ≠ [] := by
  cases h <;> exact List.cons_ne_nil _ _

theorem drop (h : Stacked e ss xs) {d : Nat} (hd : ss.drop d ≠ []) :
    Stacked e (ss.drop d) (xs.drop d) := by
  induction h generalizing d with
  | bottom =>
    cases d with
    | zero => exact .bottom
    | succ d => exact (hd (List.drop_nil ..)).elim
  | push h hrow hx ih =>
    cases d with
    | zero => exact .push h hrow hx
    | succ d => exact ih hd

end Stacked

/-! ## Gauges -/

/-- What tells how high a stack can be. -/
structure Gauge where
  /-- The terminals that nest. -/
  nests : Terminal → Bool
  /-- A bound for the number of slots up to one of the state, if nothing nests. -/
  depth : Nat → Nat
  /-- Something may nest below the state. -/
  inside : Nat → Bool
  /-- A bound for the depths. -/
  most : Nat
  /-- What each terminal that nests adds to them. -/
  weight : Nat

namespace Gauge

variable (g : Gauge)

/-- How many of the tokens nest. -/
def count (ts : List Token) : Nat := ts.countP fun t ↦ g.nests t.kind

def isNest : Symbol → Bool
  | .terminal t => g.nests t
  | .nonterminal _ => false

/-- What the gauge must say where one state leads to another. -/
structure Allows (n : Nat) (x : Symbol) (m : Nat) : Prop where
  depth : g.depth n + 1 ≤ g.depth m + if g.isNest x then g.weight else 0
  inside : g.isNest x = true ∨ g.inside n = true → g.inside m = true
  outside : x = .terminal .eol ∨ x = .terminal .error → g.inside n = false

instance (n : Nat) (x : Symbol) (m : Nat) : Decidable (g.Allows n x m) :=
  decidable_of_iff (_ ∧ _ ∧ _) ⟨fun h ↦ ⟨h.1, h.2.1, h.2.2⟩, fun h ↦ ⟨h.depth, h.inside, h.outside⟩⟩

/-- The gauge is right for the machine. -/
structure Fits (e : Engine α) : Prop where
  bottom : 1 ≤ g.depth 0
  most : ∀ n, g.depth n ≤ g.most
  allows : ∀ {n m : Nat} {x : Symbol} {row : Row}, e.row? n = some row → (x, m) ∈ row.ways →
    g.Allows n x m
  eol : g.nests .eol = false
  error : g.nests .error = false

/-- Some tokens are left when `n` of the line have nested, and no line nests more than `k` times. -/
def Within (k : Nat) : Nat → List Token → Prop
  | n, [] => n ≤ k
  | n, t :: ts =>
    n ≤ k ∧ Within k (if t.kind = .eol then 0 else n + if g.nests t.kind then 1 else 0) ts

variable {g} {k n : Nat} {ts : List Token}

theorem Within.le (h : g.Within k n ts) : n ≤ k := by
  cases ts with
  | nil => exact h
  | cons t ts => exact h.1

theorem Within.takeWhile (h : g.Within k n ts) (p : Token → Bool) :
    g.Within k n (ts.takeWhile p) := by
  induction ts generalizing n with
  | nil => exact h
  | cons t ts ih =>
    rw [List.takeWhile_cons]
    split
    · exact ⟨h.1, ih h.2⟩
    · exact h.1

/-- Lines that nest often enough are those between the ends of lines. -/
theorem within_of_runs (before : List Token)
    (h : ∀ run ∈ (ts.splitOnP fun t ↦ t.kind == .eol).modifyHead (before ++ ·), g.count run ≤ k) :
    g.Within k (g.count before) ts := by
  induction ts generalizing before with
  | nil =>
    refine h before ?_
    simp [List.splitOnP_nil]
  | cons t ts ih =>
    obtain ⟨run, runs, hruns⟩ :=
      List.exists_cons_of_ne_nil (List.splitOnP_ne_nil (fun t : Token ↦ t.kind == .eol) ts)
    rw [List.splitOnP_cons_eq_if_modifyHead] at h
    have hle : ∀ {rest : List Token}, g.count (before ++ rest) ≤ k → g.count before ≤ k := fun h ↦
      le_trans (by rw [count, count, List.countP_append]; exact Nat.le_add_right ..) h
    by_cases ht : t.kind = .eol
    · rw [if_pos (by simpa using ht)] at h
      refine ⟨hle (h _ (List.mem_cons_self ..)), ?_⟩
      rw [if_pos ht]
      refine ih [] fun run hrun ↦ h run (List.mem_cons_of_mem _ ?_)
      simpa [hruns] using hrun
    · rw [if_neg (by simpa using ht), hruns] at h
      refine ⟨hle (h _ (List.mem_cons_self ..)), ?_⟩
      rw [if_neg ht]
      have hcount : g.count (before ++ [t]) =
          g.count before + if g.nests t.kind then 1 else 0 := by
        rw [count, count, List.countP_append, List.countP_singleton]
      rw [← hcount]
      refine ih _ fun run hrun ↦ h run ?_
      simpa [hruns] using hrun

/-- How many of the symbols nest. -/
def nested (g : Gauge) (xs : List Symbol) : Nat := xs.countP g.isNest

variable {e : Engine α} {s m : Nat} {ss : List Nat} {x : Symbol} {xs : List Symbol} {row : Row}

theorem nested_drop_le (d : Nat) (xs : List Symbol) : g.nested (xs.drop d) ≤ g.nested xs :=
  (List.drop_sublist d xs).countP_le

namespace Fits

variable (h : g.Fits e)

include h

theorem length_le (hs : Stacked e (s :: ss) xs) :
    (s :: ss).length ≤ g.depth s + g.weight * g.nested xs := by
  generalize hss : s :: ss = ss' at hs
  induction hs generalizing s ss with
  | bottom =>
    cases hss
    exact h.bottom.trans (Nat.le_add_right ..)
  | @push s n ss x xs row _ hrow hx ih =>
    cases hss
    have hle := ih rfl
    have hdepth := (h.allows hrow (Row.mem_ways_of_leadsTo hx)).depth
    unfold nested at hle ⊢
    calc (n :: s :: ss).length = (s :: ss).length + 1 := rfl
      _ ≤ g.depth s + g.weight * xs.countP g.isNest + 1 := Nat.succ_le_succ hle
      _ ≤ g.depth n + g.weight * (x :: xs).countP g.isNest := by
        rw [List.countP_cons, Nat.mul_add]
        split at hdepth <;> rename_i hnest <;> simp only [hnest] <;> simp <;> omega

/-- Where something nests below a state, the gauge says so. -/
theorem inside (hs : Stacked e (s :: ss) xs) (hpos : 0 < g.nested xs) : g.inside s = true := by
  generalize hss : s :: ss = ss' at hs
  induction hs generalizing s ss with
  | bottom => exact (Nat.lt_irrefl 0 hpos).elim
  | @push s n ss x xs row _ hrow hx ih =>
    cases hss
    refine (h.allows hrow (Row.mem_ways_of_leadsTo hx)).inside ?_
    by_cases hnest : g.isNest x = true
    · exact Or.inl hnest
    · rw [nested, List.countP_cons_of_neg hnest] at hpos
      exact Or.inr (ih hpos rfl)

/-- Nothing nests where a line can end or recovery goes on. -/
theorem nested_eq_zero (hs : Stacked e (s :: ss) xs) (hrow : e.row? s = some row)
    (hx : row.LeadsTo n x) (hend : x = .terminal .eol ∨ x = .terminal .error) :
    g.nested xs = 0 := by
  by_contra hne
  have hinside := h.inside hs (Nat.pos_of_ne_zero hne)
  rw [(h.allows hrow (Row.mem_ways_of_leadsTo hx)).outside hend] at hinside
  cases hinside

end Fits

end Gauge

/-! ## Runs -/

namespace Config

/-- What nests on the stack is of one line, of which as much as is allowed is left. -/
def Gauged (g : Gauge) (e : Engine α) (k : Nat) (slots : List (Slot V)) (pending : List Token) :
    Prop :=
  ∃ xs n, Stacked e (slots.map Slot.state) xs ∧ g.nested xs ≤ n ∧ g.Within k n pending

variable {e : Engine α} {r : Reducer α V σ} {g : Gauge} {k : Nat} {c : Config V σ}
  {slots : List (Slot V)} {pending : List Token}

theorem Gauged.length_le (h : g.Fits e) (hs : Gauged g e k slots pending) :
    slots.length ≤ g.most + g.weight * k := by
  obtain ⟨xs, n, hstacked, hnested, hwithin⟩ := hs
  obtain ⟨s, ss, hss⟩ := List.exists_cons_of_ne_nil hstacked.ne_nil
  rw [hss] at hstacked
  calc slots.length = (s :: ss).length := by rw [← hss, List.length_map]
    _ ≤ g.depth s + g.weight * g.nested xs := h.length_le hstacked
    _ ≤ g.most + g.weight * k :=
      Nat.add_le_add (h.most s) (Nat.mul_le_mul_left _ (hnested.trans hwithin.le))

/-- Recovery takes off whatever nests. -/
theorem gauged_of_recovers (h : g.Fits e) {xs : List Symbol} {n : Nat}
    (hs : Stacked e (slots.map Slot.state) xs) (hwithin : g.Within k n pending) {m : σ}
    {s : Step V σ} (hr : Recovers e r slots pending m s) :
    s.Post (fun c ↦ Gauged g e k c.stack.slots c.pending) (fun _ _ ↦ True) fun _ _ ↦ True := by
  cases hr with
  | @resume popped rest x m span c' hslots _ hshift hslots' hpending _ _ =>
    obtain ⟨row, hrow, hshift⟩ := Option.bind_eq_some_iff.mp hshift
    have hx := Row.leadsTo_error hshift
    have hdrop := hs.drop (d := popped.length)
    rw [← List.map_drop, hslots, List.drop_left, List.map_cons] at hdrop
    have hdrop := hdrop (List.cons_ne_nil _ _)
    rw [Step.post_running, hslots', hpending]
    refine ⟨_, n, .push hdrop hrow hx, ?_, hwithin⟩
    rw [Gauge.nested, List.countP_cons_of_neg (by simp [Gauge.isNest, h.error]),
      ← Gauge.nested, h.nested_eq_zero hdrop hrow hx (Or.inr rfl)]
    exact Nat.zero_le n
  | stuck | overflow => trivial

theorem gauged_step (h : g.Fits e) (hg : e.tables = e.grammar.tables)
    (hend : ∀ n m, ¬e.grammar.Edge n (.terminal .endOfInput) m)
    (hc : Gauged g e k c.stack.slots c.pending) :
    (c.step e r).Post (fun c ↦ Gauged g e k c.stack.slots c.pending) (fun _ _ ↦ True)
      fun _ _ ↦ True := by
  obtain ⟨xs, n, hstacked, hnested, hwithin⟩ := hc
  have hmoves := moves_step (r := r) hg hend (hstacked.path hg)
  generalize c.step e r = s at hmoves
  cases hmoves with
  | @shift x rest row t ts n' c' v m hslots hrow hpending hdecide hvalue hslots' hpending' _ _ _ =>
    rw [hslots, List.map_cons] at hstacked
    have hleads : row.LeadsTo n' (.terminal t.kind) := hdecide
    rw [hpending] at hwithin
    rw [Step.post_running, hslots', hpending']
    refine ⟨_, _, .push hstacked hrow hleads, ?_, hwithin.2⟩
    rw [Gauge.nested, List.countP_cons, ← Gauge.nested]
    by_cases ht : t.kind = .eol
    · rw [h.nested_eq_zero hstacked hrow hleads (Or.inl (congrArg _ ht)), if_pos ht]
      simp [Gauge.isNest, ht, h.eol]
    · rw [if_neg ht]
      exact Nat.add_le_add_right hnested _
  | @reduce x y rest below row row' j n' p v m c' hslots _ _ _ hbelow hrow' hgoto _ hslots'
      hpending _ _ _ =>
    rw [hslots] at hstacked
    have hdrop := hstacked.drop (d := p.rhs.length)
    rw [← List.map_drop, hbelow, List.map_cons] at hdrop
    have hleads : row'.LeadsTo n' (.nonterminal p.lhs) := hgoto
    rw [Step.post_running, hslots', hpending]
    refine ⟨_, n, .push (hdrop (List.cons_ne_nil _ _)) hrow' hleads, ?_, hwithin⟩
    rw [Gauge.nested, List.countP_cons_of_neg (by simp [Gauge.isNest]), ← Gauge.nested]
    exact (Gauge.nested_drop_le _ _).trans hnested
  | @reject x y rest below row j p message m d s hslots _ _ _ hbelow _ _ hrecover =>
    rw [hslots] at hstacked
    have hdrop := hstacked.drop (d := p.rhs.length)
    rw [← List.map_drop, hbelow] at hdrop
    exact gauged_of_recovers h (hdrop (List.cons_ne_nil _ _)) hwithin hrecover
  | skip hslots _ _ hpending _ _ hrecover =>
    rw [hslots] at hstacked
    rw [hpending] at hwithin
    exact gauged_of_recovers h hstacked hwithin.2 hrecover
  | fail hslots _ _ _ _ hrecover =>
    rw [hslots] at hstacked
    exact gauged_of_recovers h hstacked hwithin hrecover
  | fatal | accept | hopeless | overflow => trivial

end Config

namespace Engine

variable {e : Engine α} {r : Reducer α V σ} {g : Gauge} {k : Nat} {input : List Token}

/-- A line that nests `k` times at most takes so many slots for that, and no text takes more. -/
theorem length_le_of_gauge (h : g.Fits e) (hg : e.tables = e.grammar.tables)
    (hend : ∀ n m, ¬e.grammar.Edge n (.terminal .endOfInput) m)
    (hruns : ∀ run ∈ input.splitOnP fun t ↦ t.kind == .eol, g.count run ≤ k) (m : σ) {n : Nat}
    {c : Config V σ} (hn : e.steps r n (e.start r input m) = .running c) :
    c.stack.length ≤ g.most + g.weight * k := by
  have hwithin : g.Within k 0 input := by
    refine Gauge.within_of_runs [] fun run hrun ↦ hruns run ?_
    rw [show (([] : List Token) ++ ·) = id from rfl, List.modifyHead_id] at hrun
    exact hrun
  have hpost : (e.steps r n (e.start r input m)).Post
      (fun c ↦ Config.Gauged g e k c.stack.slots c.pending) (fun _ _ ↦ True) fun _ _ ↦ True := by
    refine e.post_steps r (fun c hc ↦ Config.gauged_step h hg hend hc) n ?_
    refine e.post_start r (fun c hslots hahead hinput hexhausted _ _ ↦ ?_) fun _ _ _ ↦ trivial
    rw [hslots]
    refine ⟨[], 0, .bottom, Nat.le_refl 0, ?_⟩
    rw [Config.pending, hahead, hexhausted, hinput]
    exact hwithin.takeWhile _
  rw [hn] at hpost
  exact hpost.length_le h

end Engine

end PlainLedger
