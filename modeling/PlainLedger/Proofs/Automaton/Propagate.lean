import PlainLedger.Proofs.Automaton.Spread

/-!
# Carrying lookaheads between states

The lookaheads of the kernels can be found by adding what comes about within the states first and
carrying it along afterwards. Each round of carrying adds a terminal somewhere or is the last one.
What is left behind then is closed under everything that flows into a kernel item, and within the
least lookaheads that are closed in this way: it is equal to them.
-/

namespace PlainLedger

/-- A computation for each element of a list has a result if each of them has one. -/
theorem exists_mapM_eq_some {β γ : Type} {f : β → Part γ} {R : β → γ → Prop} {xs : List β}
    (h : ∀ x ∈ xs, ∃ y, f x = .some y ∧ R x y) :
    ∃ ys, xs.mapM f = .some ys ∧ (∀ x ∈ xs, ∃ y ∈ ys, R x y) ∧ ∀ y ∈ ys, ∃ x ∈ xs, R x y := by
  induction xs with
  | nil => exact ⟨[], rfl, by simp, by simp⟩
  | cons x xs ih =>
    rw [List.forall_mem_cons] at h
    obtain ⟨⟨y, hy, hxy⟩, hrest⟩ := h
    obtain ⟨ys, hys, hleft, hright⟩ := ih hrest
    refine ⟨y :: ys, by simp [List.mapM_cons, hy, hys], ?_, ?_⟩
    · rw [List.forall_mem_cons]
      refine ⟨⟨y, List.mem_cons_self .., hxy⟩, fun z hz ↦ ?_⟩
      obtain ⟨w, hw, hzw⟩ := hleft z hz
      exact ⟨w, List.mem_cons_of_mem _ hw, hzw⟩
    · rw [List.forall_mem_cons]
      refine ⟨⟨x, List.mem_cons_self .., hxy⟩, fun w hw ↦ ?_⟩
      obtain ⟨z, hz, hzw⟩ := hright w hw
      exact ⟨z, List.mem_cons_of_mem _ hz, hzw⟩

namespace Lookaheads

/-! ## Adding lookaheads -/

/-- The lookaheads are for as many places of as many states, and there is room for the others. -/
structure Within (l l' : Lookaheads) : Prop where
  lengths : l.map List.length = l'.map List.length
  get (n k : Nat) : (l.get n k).Within (l'.get n k)

variable {l l' l'' : Lookaheads}

theorem Within.refl (l : Lookaheads) : l.Within l := ⟨rfl, fun _ _ _ ht ↦ ht⟩

theorem Within.trans (h : l.Within l') (h' : l'.Within l'') : l.Within l'' :=
  ⟨h.lengths.trans h'.lengths, fun n k t ht ↦ h'.get n k t (h.get n k t ht)⟩

theorem Within.forall₂ (h : l.Within l') (hp : l.Proper) (hp' : l'.Proper) :
    List.Forall₂ (List.Forall₂ Rises) l l' := by
  have hlength : l.length = l'.length := by simpa using congrArg List.length h.lengths
  refine List.forall₂_iff_get.mpr ⟨hlength, fun n hn hn' ↦ ?_⟩
  have hrow := List.getElem_of_eq h.lengths (i := n) (by simpa using hn)
  rw [List.getElem_map, List.getElem_map] at hrow
  refine List.forall₂_iff_get.mpr ⟨hrow, fun k hk hk' ↦ ?_⟩
  have hwithin := h.get n k
  rw [get_eq (List.getElem?_eq_getElem hn) (List.getElem?_eq_getElem hk),
    get_eq (List.getElem?_eq_getElem hn') (List.getElem?_eq_getElem hk')] at hwithin
  exact ⟨hp _ (List.getElem_mem hn) _ (List.getElem_mem hk),
    hp' _ (List.getElem_mem hn') _ (List.getElem_mem hk'), hwithin⟩

theorem Within.antisymm (h : l.Within l') (h' : l'.Within l) (hp : l.Proper) (hp' : l'.Proper) :
    l = l' :=
  TerminalSet.grows_within.list.list.antisymm (h.forall₂ hp hp') (h'.forall₂ hp' hp)

section Add

variable (l) (n k : Nat) (s : TerminalSet)

theorem lengths_add : (l.add n k s).map List.length = l.map List.length := by
  refine List.ext_getElem (by simp [add]) fun m hm _ ↦ ?_
  simp only [add, List.getElem_map, List.getElem_modify]
  split <;> simp

/-- Nothing is added where there is no such place. -/
theorem get_add (m p : Nat) : (l.add n k s).get m p =
    if n = m ∧ k = p ∧ p < (l.getD m []).length then (l.get m p).union s else l.get m p := by
  by_cases hm : n = m
  · subst hm
    cases hrow : l[n]? with
    | none => simp [get, add, hrow]
    | some row =>
      by_cases hp : p < row.length
      · by_cases hk : k = p <;> simp [get, add, hrow, hk, hp]
      · simp [get, add, hrow, hp]
  · simp [get, add, hm]

theorem within_add : l.Within (l.add n k s) := by
  refine ⟨(lengths_add ..).symm, fun m p t ht ↦ ?_⟩
  rw [get_add]
  split
  · exact TerminalSet.mem_union.mpr (Or.inl ht)
  · exact ht

variable {l n k s}

theorem within_get_add (hk : k < (l.getD n []).length) : s.Within ((l.add n k s).get n k) := by
  intro t ht
  rw [get_add, if_pos ⟨rfl, rfl, hk⟩]
  exact TerminalSet.mem_union.mpr (Or.inr ht)

/-- Where there is room for what is added, there is room for the sum. -/
theorem Within.add (h : l.Within l') (hs : s.Within (l'.get n k)) : (l.add n k s).Within l' := by
  refine ⟨(lengths_add ..).trans h.lengths, fun m p t ht ↦ ?_⟩
  rw [get_add] at ht
  split at ht
  · rename_i hplace
    rcases TerminalSet.mem_union.mp ht with ht | ht
    · exact h.get m p t ht
    · rw [← hplace.1, ← hplace.2.1]
      exact hs t ht
  · exact h.get m p t ht

theorem Proper.add (h : l.Proper) (hs : s.Proper) : (l.add n k s).Proper := by
  intro row hrow r hr
  obtain ⟨m, hm⟩ := List.mem_iff_getElem?.mp hrow
  obtain ⟨p, hp⟩ := List.mem_iff_getElem?.mp hr
  rw [← get_eq hm hp, get_add]
  split
  · exact (h.get m p).union hs
  · exact h.get m p

end Add

/-! ## Rounds -/

section Rounds

variable (o : Outflow) (os : List Outflow)

theorem generate_spec (l : Lookaheads) : l.Within (l.generate o) ∧
    ∀ w ∈ o.targets, ∃ between : Lookaheads, l.Within between ∧
      (between.add w.1 w.2.1 w.2.2.generated).Within (l.generate o) :=
  foldl_between Within.refl (fun h h' ↦ h.trans h') o.targets (fun l _ _ ↦ within_add l ..) l

theorem generated_spec (states : List State) :
    ((blank states).add 0 0 (.singleton .endOfInput)).Within (generated os states) ∧
    ∀ o ∈ os, ∃ between : Lookaheads,
      ((blank states).add 0 0 (.singleton .endOfInput)).Within between ∧
        (between.generate o).Within (generated os states) :=
  foldl_between Within.refl (fun h h' ↦ h.trans h') os (fun l o _ ↦ (generate_spec o l).1) _

theorem carry_spec (l : Lookaheads) : l.Within (l.carry o) ∧
    ∀ w ∈ o.targets, w.2.2.passes = true → ∃ between : Lookaheads, l.Within between ∧
      (between.add w.1 w.2.1 (l.get o.state o.place)).Within (l.carry o) := by
  obtain ⟨hall, heach⟩ := foldl_between Within.refl (fun h h' ↦ h.trans h') o.targets
    (f := fun m w ↦ if w.2.2.passes then m.add w.1 w.2.1 (l.get o.state o.place) else m)
    (fun m w _ ↦ by
      split
      · exact within_add m ..
      · exact .refl m) l
  refine ⟨hall, fun w hw hp ↦ ?_⟩
  obtain ⟨between, hbefore, hafter⟩ := heach w hw
  rw [if_pos hp] at hafter
  exact ⟨between, hbefore, hafter⟩

theorem carryAll_spec (l : Lookaheads) : l.Within (carryAll os l) ∧
    ∀ o ∈ os, ∃ between : Lookaheads, l.Within between ∧
      (between.carry o).Within (carryAll os l) :=
  foldl_between Within.refl (fun h h' ↦ h.trans h') os (fun l o _ ↦ (carry_spec o l).1) l

variable {l : Lookaheads}

theorem Proper.carry (h : l.Proper) : (l.carry o).Proper := by
  refine List.foldlRecOn (motive := Proper) _ _ h fun m hm w _ ↦ ?_
  dsimp only
  split
  · exact hm.add (h.get o.state o.place)
  · exact hm

theorem Proper.carryAll (h : l.Proper) : (carryAll os l).Proper :=
  List.foldlRecOn (motive := Proper) _ _ h fun _ h o _ ↦ h.carry o

end Rounds

/-! ## Places -/

variable {states : List State}

theorem Within.fits (h : l.Within l') (hl : l.Fits states) : l'.Fits states :=
  h.lengths.symm.trans hl

theorem fits_blank (states : List State) : (blank states).Fits states := by
  simp only [Fits, blank, List.map_map]
  exact List.map_congr_left fun s _ ↦ List.length_map ..

@[simp] theorem get_blank (states : List State) (n k : Nat) : (blank states).get n k = .empty := by
  simp only [get, blank, List.getD_eq_getElem?_getD, List.getElem?_map]
  cases hs : states[n]? with
  | none => simp
  | some s => cases hi : s.kernel[k]? <;> simp

theorem proper_blank (states : List State) : (blank states).Proper := by
  intro row hrow s hs
  obtain ⟨x, -, rfl⟩ := List.mem_map.mp hrow
  obtain ⟨i, -, rfl⟩ := List.mem_map.mp hs
  exact TerminalSet.proper_empty

theorem Fits.lt_length (h : l.Fits states) {n k : Nat} {s : State} (hs : states[n]? = some s)
    (hk : k < s.kernel.length) : k < (l.getD n []).length := by
  have hrow := congrArg (fun xs ↦ xs[n]?) h
  simp only [List.getElem?_map, hs, Option.map_some, Option.map_eq_some_iff] at hrow
  obtain ⟨row, hrow, hlength⟩ := hrow
  rw [List.getD_eq_getElem?_getD, hrow, Option.getD_some, hlength]
  exact hk

theorem fits_generated (os : List Outflow) (states : List State) :
    (generated os states).Fits states := by
  refine (generated_spec os states).1.fits ?_
  exact (lengths_add ..).trans (fits_blank states)

end Lookaheads

namespace Grammar

variable {α : Type} {g : Grammar α} {table : FlowTable} {states : List State}

/-! ## Where lookaheads go -/

theorem outflows_eq_leaving (s : State) (i : Item) : g.outflows table states s i =
    g.leaving states s (g.flowClosure table [(i, .through)]) := rfl

/-- The ways that were found are those that there are. -/
def Traced (g : Grammar α) (table : FlowTable) (states : List State) (os : List Outflow) : Prop :=
  ∀ m l n k f, (m, l, ⟨n, k, f⟩) ∈ g.ways table states ↔
    ∃ o ∈ os, o.state = n ∧ o.place = k ∧ (m, l, f) ∈ o.targets

theorem mem_places {s : State} {n k : Nat} {i : Item} :
    (s, n, i, k) ∈ places states ↔ states[n]? = some s ∧ s.kernel[k]? = some i := by
  simp only [places, List.mem_flatMap, List.mem_map, Prod.exists, List.mem_zipIdx_iff_getElem?,
    Prod.mk.injEq]
  constructor
  · rintro ⟨s, n, hs, i, k, hi, rfl, rfl, rfl, rfl⟩
    exact ⟨hs, hi⟩
  · rintro ⟨hs, hi⟩
    exact ⟨s, n, hs, i, k, hi, rfl, rfl, rfl, rfl⟩

theorem distinct_single {i : Item} (hi : ∀ k < g.rules.length, i ≠ ⟨k, 0⟩) :
    Spread.Distinct g [(i, .through)] where
  nodup := List.nodup_singleton i
  not_rule x hx k hk := by
    rw [List.mem_singleton.mp hx]
    exact hi k hk

theorem exists_outflow (hg : g.Closed) (htable : table.Proper) (s : State) (n : Nat) {i : Item}
    (k : Nat) (hi : ∀ k < g.rules.length, i ≠ ⟨k, 0⟩) :
    ∃ o, g.outflow table states s n i k = .some o ∧ o.state = n ∧ o.place = k ∧
      ∀ w, w ∈ o.targets ↔ w ∈ g.outflows table states s i := by
  obtain ⟨items, hitems, hmem⟩ :=
    exists_spread_mem_iff hg htable (proper_single i) (distinct_single hi)
  refine ⟨⟨n, k, g.leaving states s items⟩, by simp [outflow, hitems], rfl, rfl, fun w ↦ ?_⟩
  simp only [outflows_eq_leaving, leaving, List.mem_filterMap, hmem]

theorem exists_trace (hg : g.Closed) (htable : table.Proper)
    (hkernels : ∀ s ∈ states, ∀ i ∈ s.kernel, ∀ k < g.rules.length, i ≠ ⟨k, 0⟩) :
    ∃ os, g.trace table states = .some os ∧ g.Traced table states os := by
  have houtflow : ∀ x ∈ places states, ∃ o, g.outflow table states x.1 x.2.1 x.2.2.1 x.2.2.2 =
      .some o ∧ o.state = x.2.1 ∧ o.place = x.2.2.2 ∧
        ∀ w, w ∈ o.targets ↔ w ∈ g.outflows table states x.1 x.2.2.1 := by
    rintro ⟨s, n, i, k⟩ hx
    obtain ⟨hs, hi⟩ := mem_places.mp hx
    exact exists_outflow hg htable s n k
      (hkernels s (List.mem_of_getElem? hs) i (List.mem_of_getElem? hi))
  obtain ⟨os, hos, hleft, hright⟩ := exists_mapM_eq_some houtflow
  refine ⟨os, hos, fun m l n k f ↦ ?_⟩
  rw [mem_ways]
  constructor
  · rintro ⟨s, i, hs, hi, hway⟩
    obtain ⟨o, ho, hn, hk, htargets⟩ := hleft (s, n, i, k) (mem_places.mpr ⟨hs, hi⟩)
    exact ⟨o, ho, hn, hk, (htargets _).mpr hway⟩
  · rintro ⟨o, ho, rfl, rfl, hway⟩
    obtain ⟨⟨s, n, i, k⟩, hx, hn, hk, htargets⟩ := hright o ho
    obtain ⟨hs, hi⟩ := mem_places.mp hx
    exact ⟨s, i, hn ▸ hs, hk ▸ hi, (htargets _).mp hway⟩

theorem exists_place_of_mem_ways {m l : Nat} {w : Inflow} (h : (m, l, w) ∈ g.ways table states) :
    ∃ s, states[m]? = some s ∧ l < s.kernel.length := by
  obtain ⟨s, i, -, -, hout⟩ := mem_ways.mp h
  obtain ⟨j, -, s', -, -, -, hs', hplace⟩ := of_mem_outflows hout
  exact ⟨s', hs', (List.getElem?_eq_some_iff.mp hplace).1⟩

/-! ## The lookaheads are room enough -/

section Carry

variable {os : List Outflow} (hos : g.Traced g.flows g.states os) {o : Outflow} {l : Lookaheads}

include hos

theorem Traced.proper (ho : o ∈ os) {w : Nat × Nat × Flow} (hw : w ∈ o.targets) :
    w.2.2.Proper :=
  proper_of_mem_ways g.proper_flows ((hos ..).mpr ⟨o, ho, rfl, rfl, hw⟩)

theorem Traced.proper_generate (ho : o ∈ os) (hl : l.Proper) : (l.generate o).Proper :=
  List.foldlRecOn (motive := Lookaheads.Proper) _ _ hl fun _ hl _ hw ↦ hl.add (hos.proper ho hw)

theorem Traced.within_generate (ho : o ∈ os) (hl : l.Within g.lookaheads) :
    (l.generate o).Within g.lookaheads := by
  refine List.foldlRecOn (motive := fun l ↦ Lookaheads.Within l g.lookaheads) _ _ hl ?_
  intro l hl w hw
  have hway := (hos ..).mpr ⟨o, ho, rfl, rfl, hw⟩
  obtain ⟨s, hs, hlt⟩ := exists_place_of_mem_ways hway
  exact hl.add fun t ht ↦ mem_get_of_way hway hs hlt (Flow.mem_apply.mpr (Or.inl ht))

theorem Traced.within_carry (ho : o ∈ os) (hl : l.Within g.lookaheads) :
    (l.carry o).Within g.lookaheads := by
  refine List.foldlRecOn (motive := fun l ↦ Lookaheads.Within l g.lookaheads) _ _ hl ?_
  intro m hm w hw
  have hway := (hos ..).mpr ⟨o, ho, rfl, rfl, hw⟩
  obtain ⟨s, hs, hlt⟩ := exists_place_of_mem_ways hway
  dsimp only
  split
  · rename_i hp
    exact hm.add fun t ht ↦
      mem_get_of_way hway hs hlt (Flow.mem_apply.mpr (Or.inr ⟨hp, hl.get _ _ t ht⟩))
  · exact hm

theorem Traced.within_carryAll (hl : l.Within g.lookaheads) :
    (Lookaheads.carryAll os l).Within g.lookaheads :=
  List.foldlRecOn (motive := fun l ↦ Lookaheads.Within l g.lookaheads) _ _ hl
    fun _ hl _ ho ↦ hos.within_carry ho hl

theorem Traced.proper_generated : (Lookaheads.generated os g.states).Proper := by
  refine List.foldlRecOn (motive := Lookaheads.Proper) _ _ ?_
    fun _ hl _ ho ↦ hos.proper_generate ho hl
  exact (Lookaheads.proper_blank _).add (TerminalSet.proper_singleton _)

theorem Traced.within_generated : (Lookaheads.generated os g.states).Within g.lookaheads := by
  refine List.foldlRecOn (motive := fun l ↦ Lookaheads.Within l g.lookaheads) _ _ ?_
    fun _ hl _ ho ↦ hos.within_generate ho hl
  refine Lookaheads.Within.add ⟨?_, fun n k t ht ↦ ?_⟩ fun t ht ↦ ?_
  · exact (Lookaheads.fits_blank _).trans (g.fits_solveLookaheads g.flows g.states).symm
  · rw [Lookaheads.get_blank] at ht
    exact (TerminalSet.not_mem_empty t ht).elim
  · rw [TerminalSet.mem_singleton.mp ht]
    exact endOfInput_mem_get

/-! ## What is left behind is closed -/

theorem Traced.within_get_generated {m p n k : Nat} {f : Flow}
    (hway : (m, p, ⟨n, k, f⟩) ∈ g.ways g.flows g.states) :
    f.generated.Within ((Lookaheads.generated os g.states).get m p) := by
  obtain ⟨o, ho, rfl, rfl, hw⟩ := (hos ..).mp hway
  obtain ⟨s, hs, hlt⟩ := exists_place_of_mem_ways hway
  obtain ⟨between, -, hafter⟩ := (Lookaheads.generated_spec os g.states).2 o ho
  obtain ⟨between', -, hafter'⟩ := (Lookaheads.generate_spec o between).2 _ hw
  have hall := hafter'.trans hafter
  have hfits : Lookaheads.Fits between' g.states := by
    refine Eq.trans ?_ (Lookaheads.fits_generated os g.states)
    rw [← hall.lengths, Lookaheads.lengths_add]
  exact fun t ht ↦ hall.get m p t (Lookaheads.within_get_add (hfits.lt_length hs hlt) t ht)

/-- What a round without changes finds has been carried already. -/
theorem Traced.within_of_carryAll_eq {m p n k : Nat} {f : Flow} (hl : l.Fits g.states)
    (hway : (m, p, ⟨n, k, f⟩) ∈ g.ways g.flows g.states) (hp : f.passes = true)
    (hstill : Lookaheads.carryAll os l = l) : (l.get n k).Within (l.get m p) := by
  obtain ⟨o, ho, rfl, rfl, hw⟩ := (hos ..).mp hway
  obtain ⟨s, hs, hlt⟩ := exists_place_of_mem_ways hway
  obtain ⟨between, hbefore, hafter⟩ := (Lookaheads.carryAll_spec os l).2 o ho
  obtain ⟨between', hbefore', hafter'⟩ := (Lookaheads.carry_spec o between).2 _ hw hp
  rw [hstill] at hafter
  have hfits := hbefore'.fits (hbefore.fits hl)
  intro t ht
  apply (hafter'.trans hafter).get m p t
  exact Lookaheads.within_get_add (hfits.lt_length hs hlt) t (hbefore.get _ _ t ht)

theorem Traced.exists_untilStill : ∃ l,
    untilStill (Lookaheads.carryAll os) (Lookaheads.generated os g.states) = .some l ∧
      ((Lookaheads.generated os g.states).Within l ∧ l.Within g.lookaheads ∧ l.Proper) ∧
        Lookaheads.carryAll os l = l := by
  have hbound : ∀ l : Lookaheads, (Lookaheads.generated os g.states).Within l ∧
      l.Within g.lookaheads ∧ l.Proper → (l.map fun row ↦ (row.map TerminalSet.size).sum).sum ≤
        (g.lookaheads.map List.length).sum * Terminal.count := by
    rintro l ⟨-, hl, -⟩
    rw [← hl.lengths]
    exact l.sum_size_le
  refine exists_untilStill_of_grows TerminalSet.grows_within.list ?_ ?_ hbound ?_
  · rintro l ⟨hbegun, hl, hproper⟩
    exact ⟨hbegun.trans (Lookaheads.carryAll_spec os l).1, hos.within_carryAll hl,
      hproper.carryAll os⟩
  · rintro l ⟨-, -, hproper⟩
    exact (Lookaheads.carryAll_spec os l).1.forall₂ hproper (hproper.carryAll os)
  · exact ⟨.refl _, hos.within_generated, hos.proper_generated⟩

end Carry

/-- Lookaheads that are closed under all ways have room for the least such. -/
theorem lookaheads_within {l : Lookaheads} (hl : l.Fits g.states)
    (hend : .endOfInput ∈ l.get 0 0)
    (hways : ∀ m p n k f, (m, p, ⟨n, k, f⟩) ∈ g.ways g.flows g.states →
      (f.apply (l.get n k)).Within (l.get m p)) : g.lookaheads.Within l := by
  refine ⟨(g.fits_solveLookaheads g.flows g.states).trans hl.symm, ?_⟩
  refine settle_induction (P := fun l' : Lookaheads ↦
    ∀ n k, (l'.get n k).Within (l.get n k)) ?_ _ ?_
  · intro l' hl' m p t ht
    rcases mem_get_collect ht with ht | ⟨row, cell, hrow, hcell, w, hw, ht⟩
    · exact hl' m p t ht
    · apply hways m p w.state w.place w.flow (mem_ways_of_mem_inflows hrow hcell hw)
      rw [Flow.mem_apply] at ht ⊢
      exact ht.imp_right fun ht ↦ ⟨ht.1, hl' _ _ t ht.2⟩
  · intro n k t ht
    obtain ⟨rfl, rfl, rfl⟩ := of_mem_get_initial ht
    exact hend

/-- The rounds come to an end, and what they end with are the lookaheads. -/
theorem propagate_eq (hg : g.Closed) : g.propagate g.flows g.states = .some g.lookaheads := by
  have hkernels : ∀ s ∈ g.states, ∀ i ∈ s.kernel, ∀ k < g.rules.length, i ≠ ⟨k, 0⟩ := by
    rintro s hs i hi k hk rfl
    obtain ⟨n, hn⟩ := List.mem_iff_getElem?.mp hs
    have hstart := (eq_startItem_of_kernelHas ⟨s, hn, hi⟩ rfl).2
    exact hk.ne (congrArg Item.rule hstart)
  obtain ⟨os, htrace, hos⟩ := exists_trace hg g.proper_flows hkernels
  obtain ⟨l, hl, ⟨hbegun, hbelow, hproper⟩, hstill⟩ := hos.exists_untilStill
  have hfits := hbegun.fits (Lookaheads.fits_generated os g.states)
  have habove : g.lookaheads.Within l := by
    refine lookaheads_within hfits ?_ fun m p n k f hway t ht ↦ ?_
    · obtain ⟨s, hs, hkernel⟩ := g.exists_start_state
      have hplace : 0 < ((Lookaheads.blank g.states).getD 0 []).length :=
        (Lookaheads.fits_blank _).lt_length hs (by simp [hkernel])
      apply hbegun.get
      apply (Lookaheads.generated_spec os g.states).1.get
      exact Lookaheads.within_get_add hplace _ (TerminalSet.mem_singleton.mpr rfl)
    · rcases Flow.mem_apply.mp ht with ht | ⟨hp, ht⟩
      · exact hbegun.get m p t (hos.within_get_generated hway t ht)
      · exact hos.within_of_carryAll_eq hfits hway hp hstill t ht
  rw [propagate, htrace]
  simp only [Part.bind_eq_bind, Part.bind_some]
  rw [hl, hbelow.antisymm habove hproper g.proper_lookaheads]

end Grammar

end PlainLedger
