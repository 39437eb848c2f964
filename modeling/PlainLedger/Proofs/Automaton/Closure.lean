import Mathlib.Data.List.Nodup
import PlainLedger.Automaton.Item
import PlainLedger.Proofs.Ordered

/-!
# Closures of kernels

Every nonterminal that is predicted stands after the mark of some item, and everything that stands
after a mark is predicted. The first fact makes sure that a completed rule leads somewhere, the
second that no way of going on is forgotten.
-/

namespace PlainLedger.Grammar

variable {α : Type} (g : Grammar α)

/-- The nonterminals at the marks of a kernel. -/
def marked (kernel : List Item) : List Nat :=
  kernel.filterMap fun i ↦ (g.next? i).bind Symbol.nonterminal?

/-- One round of prediction. -/
def predictMore (ns : List Nat) : List Nat := Ordered.ofList (ns ++ ns.flatMap g.leading)

theorem predicted_eq (kernel : List Item) :
    g.predicted kernel = settle g.predictMore (g.names.length + 1)
      (Ordered.ofList (g.marked kernel)) := rfl

@[simp] theorem mem_predictMore {ns : List Nat} {n : Nat} :
    n ∈ g.predictMore ns ↔ n ∈ ns ∨ ∃ m ∈ ns, n ∈ g.leading m := by
  simp [predictMore]

theorem nonterminal?_eq_some {x : Symbol} {n : Nat} :
    x.nonterminal? = some n ↔ x = .nonterminal n := by
  cases x <;> simp [Symbol.nonterminal?]

theorem mem_marked {kernel : List Item} {n : Nat} :
    n ∈ g.marked kernel ↔ ∃ i ∈ kernel, g.next? i = some (.nonterminal n) := by
  simp [marked, Option.bind_eq_some_iff, nonterminal?_eq_some]

theorem mem_leading {m n : Nat} :
    n ∈ g.leading m ↔ ∃ r ∈ g.rules, r.lhs = m ∧ r.rhs.head? = some (.nonterminal n) := by
  simp only [leading, List.mem_filterMap]
  constructor
  · rintro ⟨r, hr, h⟩
    split at h
    · obtain ⟨x, hx, hn⟩ := Option.bind_eq_some_iff.mp h
      rw [nonterminal?_eq_some.mp hn] at hx
      exact ⟨r, hr, ‹_›, hx⟩
    · cases h
  · rintro ⟨r, hr, hm, h⟩
    exact ⟨r, hr, by simp [hm, h, Symbol.nonterminal?]⟩

/-! ## What a prediction rests on -/

/-- Each of `ns` stands after a mark of the kernel or begins a rule of another of them. -/
def Justified (kernel : List Item) (ns : List Nat) : Prop :=
  ∀ n ∈ ns, n ∈ g.marked kernel ∨ ∃ m ∈ ns, n ∈ g.leading m

theorem justified_predictMore {kernel : List Item} {ns : List Nat} (h : g.Justified kernel ns) :
    g.Justified kernel (g.predictMore ns) := by
  intro n hn
  rcases g.mem_predictMore.mp hn with hn | ⟨m, hm, hn⟩
  · rcases h n hn with hn | ⟨m, hm, hn⟩
    · exact Or.inl hn
    · exact Or.inr ⟨m, g.mem_predictMore.mpr (Or.inl hm), hn⟩
  · exact Or.inr ⟨m, g.mem_predictMore.mpr (Or.inl hm), hn⟩

theorem justified_predicted (kernel : List Item) :
    g.Justified kernel (g.predicted kernel) := by
  rw [predicted_eq]
  refine settle_induction (fun _ h ↦ g.justified_predictMore h) _ ?_
  intro n hn
  exact Or.inl (Ordered.mem_ofList.mp hn)

/-! ## Members of a closure -/

theorem mem_closure {kernel : List Item} {i : Item} :
    i ∈ g.closure kernel ↔ i ∈ kernel ∨
      i.dot = 0 ∧ ∃ r, g.rules[i.rule]? = some r ∧ r.lhs ∈ g.predicted kernel := by
  simp only [closure, List.mem_append, List.mem_flatMap, List.mem_map, mem_rulesOf]
  refine or_congr_right ⟨?_, ?_⟩
  · rintro ⟨n, hn, k, ⟨r, hr, rfl⟩, rfl⟩
    exact ⟨rfl, r, hr, hn⟩
  · rintro ⟨hdot, r, hr, hn⟩
    refine ⟨r.lhs, hn, i.rule, ⟨r, hr, rfl⟩, ?_⟩
    cases i
    simp_all

theorem mem_kernel_of_mem_closure {kernel : List Item} {i : Item} (h : i ∈ g.closure kernel)
    (hdot : i.dot ≠ 0) : i ∈ kernel :=
  (g.mem_closure.mp h).resolve_right fun h ↦ hdot h.1

theorem rhs_of_getElem? {k : Nat} {r : Rule α} (h : g.rules[k]? = some r) : g.rhs k = r.rhs := by
  simp [rhs, h]

theorem next?_zero {k : Nat} {r : Rule α} (h : g.rules[k]? = some r) :
    g.next? ⟨k, 0⟩ = r.rhs.head? := by
  simp [next?, afterDot, g.rhs_of_getElem? h]

theorem next?_eq_getElem? (i : Item) : g.next? i = (g.rhs i.rule)[i.dot]? := by
  simp [next?, afterDot]

/-- A nonterminal is predicted because some item of the closure goes on with it. -/
theorem exists_next_of_mem_predicted {kernel : List Item} {n : Nat}
    (h : n ∈ g.predicted kernel) :
    ∃ i ∈ g.closure kernel, g.next? i = some (.nonterminal n) := by
  rcases g.justified_predicted kernel n h with hn | ⟨m, hm, hn⟩
  · obtain ⟨i, hi, hnext⟩ := g.mem_marked.mp hn
    exact ⟨i, g.subset_closure kernel hi, hnext⟩
  · obtain ⟨r, hr, rfl, hhead⟩ := g.mem_leading.mp hn
    obtain ⟨k, hk⟩ := List.mem_iff_getElem?.mp hr
    refine ⟨⟨k, 0⟩, g.mem_closure.mpr (Or.inr ⟨rfl, r, hk, hm⟩), ?_⟩
    rw [g.next?_zero hk, hhead]

/-! ## Predictions are complete -/

variable {g}

theorem lt_of_mem_leading (hg : g.Closed) {m n : Nat} (h : n ∈ g.leading m) :
    n < g.names.length := by
  obtain ⟨r, hr, -, hhead⟩ := g.mem_leading.mp h
  exact (hg r hr).2 n (List.mem_of_mem_head? hhead)

theorem lt_of_next? (hg : g.Closed) {i : Item} {n : Nat}
    (h : g.next? i = some (.nonterminal n)) : n < g.names.length := by
  have hmem : Symbol.nonterminal n ∈ g.rhs i.rule := by
    rw [next?_eq_getElem?] at h
    exact List.mem_of_getElem? h
  unfold rhs at hmem
  split at hmem
  · rename_i r hr
    exact (hg r (List.mem_of_getElem? hr)).2 n hmem
  · simp only [List.mem_singleton, Symbol.nonterminal.injEq] at hmem
    exact hmem ▸ g.start_lt

theorem predictMore_predicted (hg : g.Closed) (kernel : List Item) :
    g.predictMore (g.predicted kernel) = g.predicted kernel := by
  rw [predicted_eq]
  have hle : ∀ ns : List Nat, ns.Pairwise (· < ·) ∧ (∀ n ∈ ns, n < g.names.length) →
      ns.length ≤ g.names.length := by
    rintro ns ⟨hasc, hns⟩
    have hnodup : ns.Nodup := hasc.imp fun h ↦ ne_of_lt h
    have hsub : ns ⊆ List.range g.names.length := fun n hn ↦ List.mem_range.mpr (hns n hn)
    simpa using (List.subperm_of_subset hnodup hsub).length_le
  refine step_settle ?_ hle ?_ ?_ (by omega)
  · rintro ns ⟨-, hns⟩
    refine ⟨Ordered.ascending_ofList _, ?_⟩
    intro n hn
    rcases g.mem_predictMore.mp hn with hn | ⟨m, -, hn⟩
    · exact hns n hn
    · exact lt_of_mem_leading hg hn
  · rintro ns ⟨hasc, -⟩ hne
    exact Ordered.length_lt_of_subset hasc (Ordered.ascending_ofList _)
      (fun n hn ↦ g.mem_predictMore.mpr (Or.inl hn)) hne
  · refine ⟨Ordered.ascending_ofList _, ?_⟩
    intro n hn
    obtain ⟨i, -, hnext⟩ := g.mem_marked.mp (Ordered.mem_ofList.mp hn)
    exact lt_of_next? hg hnext

theorem marked_subset_predicted (kernel : List Item) : g.marked kernel ⊆ g.predicted kernel := by
  rw [predicted_eq]
  refine settle_induction (P := fun ns ↦ g.marked kernel ⊆ ns) ?_ _ ?_
  · exact fun ns h n hn ↦ g.mem_predictMore.mpr (Or.inl (h hn))
  · exact fun n hn ↦ Ordered.mem_ofList.mpr hn

variable (g) in
theorem nodup_predicted (kernel : List Item) : (g.predicted kernel).Nodup := by
  have hascending : (g.predicted kernel).Pairwise (· < ·) := by
    rw [predicted_eq]
    exact settle_induction (P := fun ns : List Nat ↦ ns.Pairwise (· < ·))
      (fun ns _ ↦ Ordered.ascending_ofList _) _ (Ordered.ascending_ofList _)
  exact hascending.imp fun h ↦ ne_of_lt h

/-- Whatever stands after a mark in the closure is predicted. -/
theorem mem_predicted_of_next? (hg : g.Closed) {kernel : List Item} {i : Item} {n : Nat}
    (hi : i ∈ g.closure kernel) (h : g.next? i = some (.nonterminal n)) :
    n ∈ g.predicted kernel := by
  rcases g.mem_closure.mp hi with hi | ⟨hdot, r, hr, hlhs⟩
  · exact marked_subset_predicted kernel (g.mem_marked.mpr ⟨i, hi, h⟩)
  · have hhead : r.rhs.head? = some (.nonterminal n) := by
      rw [← g.next?_zero hr, ← h, ← hdot]
    rw [← predictMore_predicted hg kernel]
    exact g.mem_predictMore.mpr
      (Or.inr ⟨r.lhs, hlhs, g.mem_leading.mpr ⟨r, List.mem_of_getElem? hr, rfl, hhead⟩⟩)

theorem mem_closure_of_next? (hg : g.Closed) {kernel : List Item} {i : Item} {k : Nat}
    {r : Rule α} (hi : i ∈ g.closure kernel) (hr : g.rules[k]? = some r)
    (h : g.next? i = some (.nonterminal r.lhs)) : ⟨k, 0⟩ ∈ g.closure kernel :=
  g.mem_closure.mpr (Or.inr ⟨rfl, r, hr, mem_predicted_of_next? hg hi h⟩)

end PlainLedger.Grammar
