import Mathlib.Data.Fintype.Powerset
import Mathlib.Data.Fintype.Sigma
import PlainLedger.Automaton.State
import PlainLedger.Proofs.Automaton.Closure

/-!
# The survey finds every state once

Each state is left by exactly the symbols that stand after a mark of its closure, towards the state
whose kernel consists of the items so advanced. No kernel is numbered twice, so that the survey
comes to an end within its budget.
-/

namespace PlainLedger

instance : IsStrictTotalOrder Item (· < ·) where
  irrefl i h := by
    rcases h with h | ⟨-, h⟩ <;> exact lt_irrefl _ h
  trans i j k hij hjk := by
    change _ < _ ∨ _ ∧ _ < _ at hij hjk ⊢
    omega
  trichotomous i j hij hji := by
    change ¬(_ < _ ∨ _ ∧ _ < _) at hij hji
    obtain ⟨r, d⟩ := i
    obtain ⟨r', d'⟩ := j
    simp only [Item.mk.injEq] at *
    omega

instance : IsStrictTotalOrder Symbol (· < ·) where
  irrefl x h := Nat.lt_irrefl x.order h
  trans _ y _ hxy hyz := Nat.lt_trans (m := y.order) hxy hyz
  trichotomous _ _ hxy hyx := Symbol.order_injective (le_antisymm (not_lt.mp hyx) (not_lt.mp hxy))

namespace Grammar

variable {α : Type} (g : Grammar α)

theorem mem_successors {kernel : List Item} {x : Symbol} {K : List Item} :
    (x, K) ∈ g.successors kernel ↔ (∃ i ∈ g.closure kernel, g.next? i = some x) ∧
      K = Ordered.ofList (((g.closure kernel).filterMap fun i ↦
        (g.next? i).map fun y ↦ (y, i.advance)).filterMap fun m ↦
          if m.1 = x then some m.2 else none) := by
  simp only [successors, List.mem_map, Ordered.mem_ofList, List.mem_filterMap, Prod.mk.injEq,
    Option.map_eq_some_iff]
  constructor
  · rintro ⟨_, ⟨_, ⟨i, hi, y, hy, rfl⟩, rfl⟩, rfl, rfl⟩
    exact ⟨⟨i, hi, hy⟩, rfl⟩
  · rintro ⟨⟨i, hi, hx⟩, rfl⟩
    exact ⟨x, ⟨_, ⟨i, hi, x, hx, rfl⟩, rfl⟩, rfl, rfl⟩

/-- The members of a successor are the items of the closure that go on with the symbol, advanced
over it. -/
theorem mem_of_mem_successors {kernel : List Item} {x : Symbol} {K : List Item}
    (h : (x, K) ∈ g.successors kernel) {j : Item} :
    j ∈ K ↔ ∃ i ∈ g.closure kernel, g.next? i = some x ∧ j = i.advance := by
  rw [(g.mem_successors.mp h).2]
  simp only [Ordered.mem_ofList, List.mem_filterMap, Option.map_eq_some_iff]
  constructor
  · rintro ⟨_, ⟨i, hi, y, hy, rfl⟩, hj⟩
    split at hj
    · rename_i hyx
      subst hyx
      exact ⟨i, hi, hy, (Option.some.inj hj).symm⟩
    · cases hj
  · rintro ⟨i, hi, hx, rfl⟩
    exact ⟨(x, i.advance), ⟨i, hi, x, hx, rfl⟩, by simp⟩

theorem ascending_of_mem_successors {kernel : List Item} {x : Symbol} {K : List Item}
    (h : (x, K) ∈ g.successors kernel) : K.Pairwise (· < ·) := by
  rw [(g.mem_successors.mp h).2]
  exact Ordered.ascending_ofList _

theorem ascending_keys_successors (kernel : List Item) :
    ((g.successors kernel).map Prod.fst).Pairwise (· < ·) := by
  simp only [successors, List.map_map]
  exact (List.map_id _).symm ▸ Ordered.ascending_ofList _

theorem nodup_keys_successors (kernel : List Item) :
    ((g.successors kernel).map Prod.fst).Nodup :=
  (g.ascending_keys_successors kernel).imp fun h ↦ ne_of_irrefl h

end Grammar

namespace Survey

/-- The edges lead over the symbols of the successors to the numbers of their kernels. -/
def Links (kernels : List (List Item)) (successors : List (Symbol × List Item))
    (edges : List (Symbol × Nat)) : Prop :=
  List.Forall₂ (fun s e ↦ s.1 = e.1 ∧ kernels[e.2]? = some s.2) successors edges

theorem Links.append {kernels : List (List Item)} {successors : List (Symbol × List Item)}
    {edges : List (Symbol × Nat)} (h : Links kernels successors edges)
    (more : List (List Item)) : Links (kernels ++ more) successors edges := by
  refine h.imp ?_
  rintro s e ⟨hx, hk⟩
  exact ⟨hx, List.getElem?_append_left (List.getElem?_eq_some_iff.mp hk).1 ▸ hk⟩

/-- Linking adds the kernels it has not seen, each once, and numbers all of them. -/
theorem link_spec (kernels : List (List Item)) (successors : List (Symbol × List Item)) :
    (∃ more, (link kernels successors).1 = kernels ++ more ∧
      ∀ K ∈ more, ∃ x, (x, K) ∈ successors) ∧
    Links (link kernels successors).1 successors (link kernels successors).2 ∧
    (kernels.Nodup → (link kernels successors).1.Nodup) := by
  induction successors generalizing kernels with
  | nil => exact ⟨⟨[], by simp [link], by simp⟩, .nil, id⟩
  | cons s rest ih =>
    obtain ⟨x, K⟩ := s
    unfold link
    split
    · rename_i k hk
      obtain ⟨⟨more, hmore, hnew⟩, hlinks, hnodup⟩ := ih kernels
      refine ⟨⟨more, hmore, fun K' hK' ↦ ?_⟩, ?_, hnodup⟩
      · obtain ⟨y, hy⟩ := hnew K' hK'
        exact ⟨y, List.mem_cons_of_mem _ hy⟩
      · refine .cons ⟨rfl, ?_⟩ hlinks
        obtain ⟨hlt, heq, -⟩ := List.findIdx?_eq_some_iff_getElem.mp hk
        simp only [hmore]
        rw [List.getElem?_append_left hlt, List.getElem?_eq_getElem hlt, eq_of_beq heq]
    · rename_i hk
      obtain ⟨⟨more, hmore, hnew⟩, hlinks, hnodup⟩ := ih (kernels ++ [K])
      refine ⟨⟨K :: more, by simpa using hmore, ?_⟩, ?_, ?_⟩
      · intro K' hK'
        rcases List.mem_cons.mp hK' with rfl | hK'
        · exact ⟨x, List.mem_cons_self ..⟩
        · obtain ⟨y, hy⟩ := hnew K' hK'
          exact ⟨y, List.mem_cons_of_mem _ hy⟩
      · refine .cons ⟨rfl, ?_⟩ hlinks
        simp [hmore]
      · intro h
        refine hnodup (List.nodup_append.mpr ⟨h, by simp, ?_⟩)
        intro K₁ h₁ K₂ h₂ heq
        rw [List.mem_singleton.mp h₂] at heq
        have := List.findIdx?_eq_none_iff.mp hk K₁ h₁
        simp [heq] at this

variable {α : Type} {g : Grammar α}

/-- What holds of a survey at any time. -/
structure Consistent (g : Grammar α) (s : Survey) : Prop where
  first : s.kernels[0]? = some [g.startItem]
  length_le : s.edges.length ≤ s.kernels.length
  linked : ∀ (k : Nat) (K : List Item) (es : List (Symbol × Nat)), s.kernels[k]? = some K →
    s.edges[k]? = some es →
    Links s.kernels (g.successors K) es
  nodup : s.kernels.Nodup
  found : ∀ (n : Nat) (K : List Item), s.kernels[n]? = some K → n = 0 ∨
    ∃ m K' x, m < n ∧ m < s.edges.length ∧ s.kernels[m]? = some K' ∧ (x, K) ∈ g.successors K'

theorem consistent_start : Consistent g ⟨[[g.startItem]], []⟩ where
  first := rfl
  length_le := by simp
  linked := by simp
  nodup := by simp
  found n K h := by
    have := (List.getElem?_eq_some_iff.mp h).1
    simp only [List.length_singleton] at this
    omega

theorem Consistent.leave {s : Survey} (h : Consistent g s) {K : List Item}
    (hK : s.kernels[s.edges.length]? = some K) :
    Consistent g ⟨(link s.kernels (g.successors K)).1,
      s.edges ++ [(link s.kernels (g.successors K)).2]⟩ := by
  obtain ⟨⟨more, hmore, hnew⟩, hlinks, hnodup⟩ := link_spec s.kernels (g.successors K)
  have hlt := (List.getElem?_eq_some_iff.mp hK).1
  rw [hmore] at hlinks hnodup ⊢
  have hold : ∀ {n K'}, n < s.kernels.length → (s.kernels ++ more)[n]? = some K' →
      s.kernels[n]? = some K' := by
    intro n K' hn hn'
    rwa [List.getElem?_append_left hn] at hn'
  refine ⟨?_, ?_, ?_, hnodup h.nodup, ?_⟩
  · rw [List.getElem?_append_left (by omega)]
    exact h.first
  · simp only [List.length_append, List.length_singleton]
    omega
  · intro k K' es hk hes
    have hk' : k < s.edges.length + 1 := by
      simpa using (List.getElem?_eq_some_iff.mp hes).1
    rcases Nat.lt_succ_iff_lt_or_eq.mp hk' with hlt' | rfl
    · rw [List.getElem?_append_left hlt'] at hes
      exact (h.linked k K' es (hold (by omega) hk) hes).append more
    · rw [List.getElem?_append_right le_rfl] at hes
      have hKK' : K = K' := Option.some.inj (hK.symm.trans (hold hlt hk))
      simp only [Nat.sub_self, List.getElem?_cons_zero, Option.some.injEq] at hes
      rw [← hKK', ← hes]
      exact hlinks
  · intro n K' hn
    rcases Nat.lt_or_ge n s.kernels.length with hn' | hn'
    · rcases h.found n K' (hold hn' hn) with h0 | ⟨m, K'', x, hmn, hm, hK'', hx⟩
      · exact Or.inl h0
      · refine Or.inr ⟨m, K'', x, hmn, ?_, ?_, hx⟩
        · simp only [List.length_append, List.length_singleton]
          omega
        · rw [List.getElem?_append_left (by omega)]
          exact hK''
    · rw [List.getElem?_append_right hn'] at hn
      obtain ⟨x, hx⟩ := hnew K' (List.mem_of_getElem? hn)
      refine Or.inr ⟨s.edges.length, K, x, by omega, ?_, ?_, hx⟩
      · simp
      · rw [List.getElem?_append_left hlt]
        exact hK

theorem consistent_complete (budget : Nat) {s : Survey} (h : Consistent g s) :
    Consistent g (complete g budget s) := by
  induction budget generalizing s with
  | zero => exact h
  | succ budget ih =>
    unfold complete
    split
    · exact h
    · rename_i K hK
      exact ih (h.leave hK)

/-- A survey that has not left every state has used up its budget. -/
theorem length_complete (budget : Nat) {s : Survey} (h : Consistent g s) :
    (complete g budget s).kernels.length = (complete g budget s).edges.length ∨
      (complete g budget s).edges.length = s.edges.length + budget := by
  induction budget generalizing s with
  | zero => exact Or.inr rfl
  | succ budget ih =>
    unfold complete
    split
    · rename_i hK
      have := List.getElem?_eq_none_iff.mp hK
      have := h.length_le
      exact Or.inl (by omega)
    · rename_i K hK
      refine (ih (h.leave hK)).imp_right fun heq ↦ ?_
      rw [heq]
      simp only [List.length_append, List.length_singleton]
      omega

end Survey

namespace Grammar

variable {α : Type} (g : Grammar α)

/-! ## There are finitely many kernels -/

/-- All items of the grammar. -/
def items : List Item :=
  (List.range (g.rules.length + 1)).flatMap fun k ↦
    (List.range ((g.rhs k).length + 1)).map (Item.mk k)

theorem mem_items {i : Item} :
    i ∈ g.items ↔ i.rule ≤ g.acceptRule ∧ i.dot ≤ (g.rhs i.rule).length := by
  simp only [items, acceptRule, List.mem_flatMap, List.mem_range, List.mem_map, Nat.lt_succ_iff]
  constructor
  · rintro ⟨k, hk, d, hd, rfl⟩
    exact ⟨hk, hd⟩
  · rintro ⟨hk, hd⟩
    exact ⟨i.rule, hk, i.dot, hd, rfl⟩

theorem length_items : g.items.length = g.itemCount := by
  have hrules : ∀ rs : List (Rule α), g.rules = rs →
      (List.range rs.length).map (fun k ↦ (g.rhs k).length + 1) =
        rs.map fun r ↦ r.rhs.length + 1 := by
    rintro rs rfl
    refine List.ext_getElem (by simp) fun k hk _ ↦ ?_
    have hk' : k < g.rules.length := by simpa using hk
    simp [g.rhs_of_getElem? (List.getElem?_eq_getElem hk')]
  have haccept : (g.rhs g.rules.length).length = 1 := by
    rw [show g.rules.length = g.acceptRule from rfl, rhs_acceptRule]
    rfl
  rw [items, List.length_flatMap]
  simp only [List.length_map, List.length_range]
  rw [List.range_succ, List.map_append, List.sum_append, hrules g.rules rfl, List.map_singleton,
    List.sum_singleton, haccept]
  rfl

/-- An ascending list of items. -/
structure IsKernel (K : List Item) : Prop where
  ascending : K.Pairwise (· < ·)
  subset : K ⊆ g.items

theorem isKernel_start : g.IsKernel [g.startItem] where
  ascending := by simp
  subset i hi := by
    rw [List.mem_singleton.mp hi]
    exact g.mem_items.mpr ⟨le_rfl, Nat.zero_le _⟩

theorem lt_length_of_next? {i : Item} {x : Symbol} (h : g.next? i = some x) :
    i.dot < (g.rhs i.rule).length := by
  rw [next?_eq_getElem?] at h
  exact (List.getElem?_eq_some_iff.mp h).1

theorem closure_subset_items {K : List Item} (hK : K ⊆ g.items) : g.closure K ⊆ g.items := by
  intro i hi
  rcases g.mem_closure.mp hi with hi | ⟨hdot, r, hr, -⟩
  · exact hK hi
  · have := (List.getElem?_eq_some_iff.mp hr).1
    exact g.mem_items.mpr ⟨this.le, by omega⟩

theorem isKernel_successor {K K' : List Item} (hK : g.IsKernel K) {x : Symbol}
    (h : (x, K') ∈ g.successors K) : g.IsKernel K' where
  ascending := g.ascending_of_mem_successors h
  subset j hj := by
    obtain ⟨i, hi, hx, rfl⟩ := (g.mem_of_mem_successors h).mp hj
    have hitem := g.mem_items.mp (g.closure_subset_items hK.subset hi)
    exact g.mem_items.mpr ⟨hitem.1, g.lt_length_of_next? hx⟩

theorem isKernel_of_consistent {s : Survey} (h : Survey.Consistent g s) :
    ∀ K ∈ s.kernels, g.IsKernel K := by
  have hget : ∀ (n : Nat) (K : List Item), s.kernels[n]? = some K → g.IsKernel K := by
    intro n
    induction n using Nat.strong_induction_on with
    | _ n ih =>
      intro K hK
      rcases h.found n K hK with rfl | ⟨m, K', x, hmn, -, hK', hx⟩
      · rw [h.first] at hK
        exact Option.some.inj hK ▸ g.isKernel_start
      · exact g.isKernel_successor (ih m hmn K' hK') hx
  intro K hK
  obtain ⟨n, hn⟩ := List.mem_iff_getElem?.mp hK
  exact hget n K hn

theorem length_le_of_isKernel {Ks : List (List Item)} (hn : Ks.Nodup)
    (h : ∀ K ∈ Ks, g.IsKernel K) : Ks.length ≤ 2 ^ g.itemCount := by
  have hinj : (Ks.map List.toFinset).Nodup := by
    refine hn.map_on ?_
    intro K hK K' hK' heq
    refine (h K hK).ascending.eq_of_mem_iff (h K' hK').ascending fun i ↦ ?_
    rw [← List.mem_toFinset, heq, List.mem_toFinset]
  have hsub : (Ks.map List.toFinset).toFinset ⊆ g.items.toFinset.powerset := by
    intro S hS
    obtain ⟨K, hK, rfl⟩ := List.mem_map.mp (List.mem_toFinset.mp hS)
    rw [Finset.mem_powerset]
    intro i hi
    exact List.mem_toFinset.mpr ((h K hK).subset (List.mem_toFinset.mp hi))
  calc Ks.length = (Ks.map List.toFinset).toFinset.card := by
        rw [List.toFinset_card_of_nodup hinj, List.length_map]
    _ ≤ g.items.toFinset.powerset.card := Finset.card_le_card hsub
    _ = 2 ^ g.items.toFinset.card := Finset.card_powerset _
    _ ≤ 2 ^ g.itemCount := by
        refine Nat.pow_le_pow_right (by omega) ?_
        exact g.length_items ▸ List.toFinset_card_le _

/-! ## The states -/

theorem consistent_survey : Survey.Consistent g g.survey :=
  Survey.consistent_complete _ Survey.consistent_start

/-- The survey leaves every state that it finds. -/
theorem length_edges_survey : g.survey.edges.length = g.survey.kernels.length := by
  have h := g.consistent_survey
  rcases Survey.length_complete (2 ^ g.itemCount) (Survey.consistent_start (g := g)) with heq | heq
  · exact heq.symm
  · have hle := g.length_le_of_isKernel h.nodup (g.isKernel_of_consistent h)
    have := h.length_le
    have : g.survey.edges.length = 2 ^ g.itemCount := by simpa [survey] using heq
    omega

theorem states_getElem? {n : Nat} {s : State} :
    g.states[n]? = some s ↔
      g.survey.kernels[n]? = some s.kernel ∧ g.survey.edges[n]? = some s.edges := by
  simp only [states, List.getElem?_map, List.getElem?_zip_eq_some, Option.map_eq_some_iff,
    Prod.exists]
  constructor
  · rintro ⟨K, es, ⟨hK, hes⟩, rfl⟩
    exact ⟨hK, hes⟩
  · rintro ⟨hK, hes⟩
    exact ⟨s.kernel, s.edges, ⟨hK, hes⟩, rfl⟩

theorem exists_state_of_kernel {n : Nat} {K : List Item} (h : g.survey.kernels[n]? = some K) :
    ∃ s, g.states[n]? = some s ∧ s.kernel = K := by
  have hlt := (List.getElem?_eq_some_iff.mp h).1
  rw [← length_edges_survey] at hlt
  exact ⟨⟨K, g.survey.edges[n]⟩, g.states_getElem?.mpr ⟨h, List.getElem?_eq_getElem hlt⟩, rfl⟩

theorem exists_start_state : ∃ s, g.states[0]? = some s ∧ s.kernel = [g.startItem] :=
  g.exists_state_of_kernel g.consistent_survey.first

end Grammar

end PlainLedger
