import PlainLedger.Proofs.Grammar.Forest

/-!
# Flows are solutions

Sets of terminals can only grow so far. Repeating a step that only adds to them therefore reaches a
solution, and the flows of the nonterminals solve the inequalities of their rules: whatever a
forest begins with is among what its symbols may begin with.
-/

namespace PlainLedger

/-! ## Growing -/

section Grows

variable {β : Type} {R : β → β → Prop} {size : β → Nat}

/-- Of two related values the second is larger, unless they are equal. -/
def Grows (R : β → β → Prop) (size : β → Nat) : Prop := ∀ x y, R x y → x = y ∨ size x < size y

theorem Grows.le (h : Grows R size) {x y : β} (hxy : R x y) : size x ≤ size y := by
  rcases h x y hxy with rfl | hlt
  · exact le_rfl
  · exact hlt.le

theorem Grows.lt (h : Grows R size) {x y : β} (hxy : R x y) (hne : y ≠ x) : size x < size y :=
  (h x y hxy).resolve_left hne.symm

/-- A list grows with its members. -/
theorem Grows.list (h : Grows R size) :
    Grows (List.Forall₂ R) fun xs ↦ (xs.map size).sum := by
  intro xs ys hxs
  induction hxs with
  | nil => exact Or.inl rfl
  | @cons x y xs ys hxy _ ih =>
    simp only [List.map_cons, List.sum_cons] at ih ⊢
    rcases h x y hxy with rfl | hlt
    · rcases ih with rfl | hlt
      · exact Or.inl rfl
      · exact Or.inr (by omega)
    · rcases ih with rfl | hlt'
      · exact Or.inr (by omega)
      · exact Or.inr (by omega)

theorem sum_map_le {xs : List β} {bound : Nat} (h : ∀ x ∈ xs, size x ≤ bound) :
    (xs.map size).sum ≤ xs.length * bound := by
  have hsum := List.sum_le_card_nsmul (xs.map size) bound (by simpa using h)
  simpa using hsum

/-- A step that lets a bounded list grow comes to rest. -/
theorem step_settle_of_grows [DecidableEq β] {step : List β → List β} {P : List β → Prop}
    {bound n : Nat} {xs : List β} (hsize : Grows R size) (hstep : ∀ xs, P xs → P (step xs))
    (hgrows : ∀ xs, P xs → List.Forall₂ R xs (step xs))
    (hbound : ∀ xs, P xs → (xs.map size).sum ≤ bound) (hxs : P xs) (hn : bound < n) :
    step (settle step n xs) = settle step n xs :=
  step_settle (P := P) hstep hbound (fun xs h hne ↦ hsize.list.lt (hgrows xs h) hne) hxs
    (by omega)

end Grows

/-! ## Sets of terminals -/

theorem Terminal.exists_index {i : Nat} (h : i < count) : ∃ t : Terminal, t.index = i := by
  have hall : ∀ i : Fin all.length, (all.get i).index = i := by decide
  exact ⟨_, hall ⟨i, h⟩⟩

namespace TerminalSet

/-- Nothing but terminals is in the set. -/
def Proper (s : TerminalSet) : Prop := s.bits < 2 ^ Terminal.count

/-- How many members the set has. -/
def size (s : TerminalSet) : Nat := s.toList.length

def Within (s r : TerminalSet) : Prop := ∀ t ∈ s, t ∈ r

variable {s r : TerminalSet}

theorem within_of_union_eq (h : s.union r = r) : s.Within r :=
  fun _ ht ↦ h ▸ mem_union.mpr (Or.inl ht)

theorem proper_empty : empty.Proper := Nat.two_pow_pos _

theorem proper_singleton (t : Terminal) : (singleton t).Proper := by
  unfold Proper singleton
  rw [Nat.one_shiftLeft]
  exact Nat.pow_lt_pow_right (by decide) t.index_lt

theorem Proper.union (hs : s.Proper) (hr : r.Proper) : (s.union r).Proper :=
  Nat.or_lt_two_pow hs hr

/-- A set is determined by its members. -/
theorem Proper.eq_of_mem_iff (hs : s.Proper) (hr : r.Proper) (h : ∀ t, t ∈ s ↔ t ∈ r) : s = r := by
  have hbits : s.bits = r.bits := by
    apply Nat.eq_of_testBit_eq
    intro i
    by_cases hi : i < Terminal.count
    · obtain ⟨t, rfl⟩ := Terminal.exists_index hi
      have hmem := h t
      rw [mem_iff, mem_iff] at hmem
      exact Bool.eq_iff_iff.mpr hmem
    · have hpow : 2 ^ Terminal.count ≤ 2 ^ i := Nat.pow_le_pow_right (by decide) (by omega)
      rw [Nat.testBit_lt_two_pow (hs.trans_le hpow), Nat.testBit_lt_two_pow (hr.trans_le hpow)]
  cases s
  cases r
  exact congrArg TerminalSet.mk hbits

theorem size_le (s : TerminalSet) : s.size ≤ Terminal.count := by
  rw [← Terminal.length_all]
  exact List.length_filter_le ..

theorem grows_within :
    Grows (fun s r : TerminalSet ↦ s.Proper ∧ r.Proper ∧ s.Within r) size := by
  rintro s r ⟨hs, hr, hsub⟩
  have hlists : s.toList.Sublist r.toList := List.monotone_filter_right _ hsub
  rcases hlists.length_le.eq_or_lt with heq | hlt
  · refine Or.inl (hs.eq_of_mem_iff hr fun t ↦ ⟨hsub t, fun ht ↦ ?_⟩)
    rw [← mem_toList, hlists.eq_of_length heq]
    exact mem_toList.mpr ht
  · exact Or.inr hlt

end TerminalSet

/-! ## Flows -/

namespace Flow

def Proper (f : Flow) : Prop := f.generated.Proper

/-- Whatever the first flow lets through or generates, the second does too. -/
def Within (f g : Flow) : Prop :=
  f.generated.Within g.generated ∧ (f.passes = true → g.passes = true)

def size (f : Flow) : Nat := f.generated.size + f.passes.toNat

variable {f g : Flow}

theorem Within.refl (f : Flow) : f.Within f := ⟨fun _ h ↦ h, fun h ↦ h⟩

theorem Within.trans {h : Flow} (hfg : f.Within g) (hgh : g.Within h) : f.Within h :=
  ⟨fun t ht ↦ hgh.1 t (hfg.1 t ht), fun hf ↦ hgh.2 (hfg.2 hf)⟩

theorem Within.andThen {f' g' : Flow} (h : f.Within f') (h' : g.Within g') :
    (f.andThen g).Within (f'.andThen g') := by
  refine ⟨fun t ht ↦ ?_, fun hp ↦ ?_⟩
  · rw [mem_generated_andThen] at ht ⊢
    exact ht.imp (h.1 t) fun ht ↦ ⟨h.2 ht.1, h'.1 t ht.2⟩
  · rw [passes_andThen, Bool.and_eq_true] at hp ⊢
    exact ⟨h.2 hp.1, h'.2 hp.2⟩

theorem within_join_left (f g : Flow) : f.Within (f.join g) := by
  constructor
  · exact fun t ht ↦ mem_generated_join.mpr (Or.inl ht)
  · intro hp
    simp [hp]

theorem within_join_right (f g : Flow) : g.Within (f.join g) := by
  constructor
  · exact fun t ht ↦ mem_generated_join.mpr (Or.inr ht)
  · intro hp
    simp [hp]

theorem Within.join {h : Flow} (hf : f.Within h) (hg : g.Within h) : (f.join g).Within h := by
  constructor
  · exact fun t ht ↦ (mem_generated_join.mp ht).elim (hf.1 t) (hg.1 t)
  · intro hp
    rw [passes_join, Bool.or_eq_true] at hp
    exact hp.elim hf.2 hg.2

theorem never_within (f : Flow) : never.Within f := by
  constructor
  · exact fun t ht ↦ (TerminalSet.not_mem_empty t ht).elim
  · exact fun hp ↦ absurd hp Bool.false_ne_true

theorem andThen_assoc (f g h : Flow) : (f.andThen g).andThen h = f.andThen (g.andThen h) := by
  cases hf : f.passes <;> cases hg : g.passes <;>
    simp [andThen, hf, hg, TerminalSet.union, Nat.lor_assoc]

theorem through_andThen (f : Flow) : through.andThen f = f := by
  simp [andThen, through, TerminalSet.union, TerminalSet.empty]

theorem andThen_through (f : Flow) : f.andThen through = f := by
  obtain ⟨generated, passes⟩ := f
  cases passes <;> simp [andThen, through, TerminalSet.union, TerminalSet.empty]

theorem Within.mem_apply (h : f.Within g) {s : TerminalSet} {t : Terminal} (ht : t ∈ f.apply s) :
    t ∈ g.apply s := by
  rw [Flow.mem_apply] at ht ⊢
  exact ht.imp (h.1 t) fun ht ↦ ⟨h.2 ht.1, ht.2⟩

theorem Proper.andThen (hf : f.Proper) (hg : g.Proper) : (f.andThen g).Proper := by
  unfold Flow.andThen
  split
  · exact TerminalSet.Proper.union hf hg
  · exact hf

theorem Proper.join (hf : f.Proper) (hg : g.Proper) : (f.join g).Proper :=
  TerminalSet.Proper.union hf hg

theorem size_le (f : Flow) : f.size ≤ Terminal.count + 1 := by
  have hsize := f.generated.size_le
  have hpasses : f.passes.toNat ≤ 1 := Bool.toNat_le ..
  unfold size
  omega

theorem grows_within : Grows (fun f g : Flow ↦ f.Proper ∧ g.Proper ∧ f.Within g) size := by
  rintro ⟨s, p⟩ ⟨r, q⟩ ⟨hs, hr, hsub, hpass⟩
  have hsize := TerminalSet.grows_within.le ⟨hs, hr, hsub⟩
  rcases TerminalSet.grows_within s r ⟨hs, hr, hsub⟩ with rfl | hlt
  · cases p
    · cases q
      · exact Or.inl rfl
      · exact Or.inr (by simp [size])
    · exact Or.inl (by rw [show q = true from hpass rfl])
  · have hpq : p.toNat ≤ q.toNat := by
      cases p
      · exact Nat.zero_le _
      · exact (congrArg Bool.toNat (show q = true from hpass rfl)).ge
    exact Or.inr (by simp only [size]; omega)

/-- Of two flows that belong to the same, the second has room for the first. -/
def Rises {β : Type} (x y : β × Flow) : Prop :=
  x.1 = y.1 ∧ x.2.Proper ∧ y.2.Proper ∧ x.2.Within y.2

theorem grows_rises {β : Type} : Grows (Rises (β := β)) fun x ↦ x.2.size := by
  rintro ⟨b, f⟩ ⟨b', f'⟩ ⟨rfl, hfs⟩
  rcases grows_within f f' hfs with rfl | hlt
  · exact Or.inl rfl
  · exact Or.inr hlt

section Fold

variable {β : Type} (h : β → Flow) (xs : List β)

/-- The join of many flows. -/
theorem within_foldl_join (f : Flow) :
    f.Within (xs.foldl (fun f x ↦ f.join (h x)) f) ∧
      ∀ x ∈ xs, (h x).Within (xs.foldl (fun f x ↦ f.join (h x)) f) := by
  induction xs generalizing f with
  | nil => exact ⟨.refl f, by simp⟩
  | cons x xs ih =>
    obtain ⟨hf, hxs⟩ := ih (f.join (h x))
    refine ⟨(within_join_left f (h x)).trans hf, ?_⟩
    intro y hy
    rcases List.mem_cons.mp hy with rfl | hy
    · exact (within_join_right f (h y)).trans hf
    · exact hxs y hy

/-- What joining keeps, joining many flows keeps. -/
theorem foldl_join_induction {P : Flow → Prop} (hjoin : ∀ f g, P f → P g → P (f.join g)) {f : Flow}
    (hf : P f) (hxs : ∀ x ∈ xs, P (h x)) : P (xs.foldl (fun f x ↦ f.join (h x)) f) := by
  induction xs generalizing f with
  | nil => exact hf
  | cons x xs ih =>
    rw [List.forall_mem_cons] at hxs
    exact ih (hjoin _ _ hf hxs.1) hxs.2

end Fold

end Flow

namespace FlowTable

/-- All flows of the table are proper ones. -/
def Proper (table : FlowTable) : Prop := ∀ f ∈ table, f.Proper

theorem Proper.getD {table : FlowTable} (h : table.Proper) (n : Nat) :
    (table.getD n .never).Proper := by
  rw [List.getD_eq_getElem?_getD]
  cases hn : table[n]? with
  | none => exact TerminalSet.proper_empty
  | some f => exact h f (List.mem_of_getElem? hn)

theorem Proper.ofSymbols {table : FlowTable} (h : table.Proper) (xs : List Symbol) :
    (table.ofSymbols xs).Proper := by
  induction xs with
  | nil => exact TerminalSet.proper_empty
  | cons x xs ih =>
    rw [ofSymbols_cons]
    cases x with
    | terminal t => exact Flow.Proper.andThen (TerminalSet.proper_singleton t) ih
    | nonterminal n => exact Flow.Proper.andThen (h.getD n) ih

end FlowTable

namespace Draft

variable {α : Type} (d : Draft α)

theorem getElem?_improve {table : FlowTable} {n : Nat} {f : Flow} (h : table[n]? = some f) :
    (d.improve table)[n]? = some ((d.rules.filter fun r ↦ r.lhs == n).foldl
      (fun f r ↦ f.join (table.ofSymbols r.rhs)) f) := by
  simp [improve, h]

theorem proper_improve {table : FlowTable} (h : table.Proper) : (d.improve table).Proper := by
  intro f hf
  obtain ⟨n, hn⟩ := List.mem_iff_getElem?.mp hf
  have hlt : n < table.length := by
    rw [← d.length_improve table]
    exact (List.getElem?_eq_some_iff.mp hn).1
  rw [d.getElem?_improve (List.getElem?_eq_getElem hlt)] at hn
  rw [← Option.some.inj hn]
  refine Flow.foldl_join_induction (fun r : Rule α ↦ table.ofSymbols r.rhs) _ (fun _ _ ↦ .join)
    (h _ (List.getElem_mem hlt)) ?_
  exact fun r _ ↦ h.ofSymbols r.rhs

theorem proper_flows : d.flows.Proper := by
  refine settle_induction (P := FlowTable.Proper) (fun _ h ↦ d.proper_improve h) _ ?_
  intro f hf
  rw [(List.mem_replicate.mp hf).2]
  exact TerminalSet.proper_empty

/-- Improving changes the flows no more. -/
theorem improve_flows : d.improve d.flows = d.flows := by
  refine step_settle_of_grows
    (P := fun table : FlowTable ↦ table.length = d.names.length ∧ table.Proper)
    Flow.grows_within ?_ ?_ ?_ ?_ (Nat.lt_succ_self _)
  · rintro table ⟨hlength, hproper⟩
    exact ⟨(d.length_improve table).trans hlength, d.proper_improve hproper⟩
  · rintro table ⟨hlength, hproper⟩
    refine List.forall₂_iff_get.mpr ⟨(d.length_improve table).symm, fun n hn hn' ↦ ?_⟩
    have himprove := d.getElem?_improve (List.getElem?_eq_getElem hn)
    rw [List.getElem?_eq_getElem hn', Option.some.injEq] at himprove
    rw [List.get_eq_getElem, List.get_eq_getElem]
    refine ⟨hproper _ (List.getElem_mem hn), d.proper_improve hproper _ (List.getElem_mem hn'), ?_⟩
    rw [himprove]
    exact (Flow.within_foldl_join _ _ _).1
  · rintro table ⟨hlength, -⟩
    rw [← hlength]
    exact sum_map_le fun f _ ↦ f.size_le
  · refine ⟨List.length_replicate, fun f hf ↦ ?_⟩
    rw [(List.mem_replicate.mp hf).2]
    exact TerminalSet.proper_empty

variable {d}

/-- The flow of a nonterminal has room for each of its rules. -/
theorem within_flows (hd : d.Closed) {p : Rule α} (hp : p ∈ d.rules) :
    (d.flows.ofSymbols p.rhs).Within (d.flows.ofSymbol (.nonterminal p.lhs)) := by
  have hlt : p.lhs < d.flows.length := by
    rw [d.length_flows]
    exact (hd p hp).1
  have himprove := d.getElem?_improve (List.getElem?_eq_getElem hlt)
  rw [d.improve_flows, List.getElem?_eq_getElem hlt, Option.some.injEq] at himprove
  rw [FlowTable.ofSymbol, List.getD_eq_getElem?_getD, List.getElem?_eq_getElem hlt,
    Option.getD_some, himprove]
  have hmem : p ∈ d.rules.filter fun r ↦ r.lhs == p.lhs :=
    List.mem_filter.mpr ⟨hp, beq_self_eq_true p.lhs⟩
  exact (Flow.within_foldl_join (fun r : Rule α ↦ d.flows.ofSymbols r.rhs) _ _).2 p hmem

end Draft

/-! ## What a forest begins with -/

namespace Forest

variable {α : Type} {g : Grammar α} {xs : List Symbol}

/-- The first of the leaves, or what follows them. -/
def first (f : Forest g xs) (t : Terminal) : Terminal := (f.leaves.head?.map Leaf.terminal).getD t

@[simp] theorem first_leaf (x : Leaf) (rest : Forest g xs) (t : Terminal) :
    (leaf x rest).first t = x.terminal := rfl

theorem first_node {k : Nat} {p : Rule α} (h : g.rules[k]? = some p) (children : Forest g p.rhs)
    (rest : Forest g xs) (t : Terminal) :
    (node k h children rest).first t = children.first (rest.first t) := by
  unfold first
  rw [leaves]
  cases children.leaves <;> rfl

/-- The flow of the symbols knows what a forest begins with. -/
theorem first_mem_apply (hg : g.Closed) (f : Forest g xs) {t : Terminal} {s : TerminalSet}
    (ht : t ∈ s) : f.first t ∈ (g.flows.ofSymbols xs).apply s := by
  induction f generalizing t s with
  | nil =>
    rw [FlowTable.ofSymbols_nil, Flow.mem_apply]
    exact Or.inr ⟨rfl, ht⟩
  | leaf x rest ih =>
    rw [FlowTable.ofSymbols_cons, Flow.mem_apply_andThen, Flow.mem_apply, first_leaf]
    exact Or.inl (TerminalSet.mem_singleton.mpr rfl)
  | @node k p h children xs rest ihc ihr =>
    rw [FlowTable.ofSymbols_cons, Flow.mem_apply_andThen, first_node]
    have hchildren := ihc (ihr ht)
    exact (Draft.within_flows hg (List.mem_of_getElem? h)).mem_apply hchildren

end Forest

end PlainLedger
