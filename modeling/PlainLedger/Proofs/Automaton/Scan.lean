import PlainLedger.Automaton.Worklist
import PlainLedger.Proofs.Automaton.Survey

/-!
# Scanning for the items of a state

A scan opens each nonterminal that it comes across once, and only those that the kernel predicts. So
its items never become more than those of the closure, and once all of them have been looked at they
are those of the closure in some order. What a state leads to does not depend on the order.
-/

namespace PlainLedger

namespace Scan

variable {α : Type} {g : Grammar α} {kernel : List Item} {s : Scan}

def rulesFrom (g : Grammar α) (n : Nat) : List Item := (g.rulesOf n).map fun k ↦ ⟨k, 0⟩

/-- What holds of a scan of the kernel at any time. -/
structure Progress (g : Grammar α) (kernel : List Item) (s : Scan) : Prop where
  items_eq : s.items = kernel ++ s.opened.reverse.flatMap (rulesFrom g)
  nodup : s.opened.Nodup
  predicted : s.opened ⊆ g.predicted kernel
  place_le : s.place ≤ s.items.length
  /-- The nonterminals that stand at the marks of the items before the place are opened. -/
  looked (p : Nat) (i : Item) (n : Nat) (hp : p < s.place) (hi : s.items[p]? = some i)
    (hnext : g.next? i = some (.nonterminal n)) : n ∈ s.opened

theorem progress_start : Progress g kernel ⟨kernel, [], 0⟩ where
  items_eq := by simp
  nodup := List.nodup_nil
  predicted := List.nil_subset _
  place_le := Nat.zero_le _
  looked p _ _ hp := absurd hp (Nat.not_lt_zero p)

theorem Progress.subperm (h : Progress g kernel s) : s.items.Subperm (g.closure kernel) := by
  have hopened : s.opened.reverse.Subperm (g.predicted kernel) :=
    List.subperm_of_subset (List.nodup_reverse.mpr h.nodup)
      (List.reverse_subset.mpr h.predicted)
  obtain ⟨ns, hperm, hsub⟩ := hopened
  rw [h.items_eq]
  exact (List.subperm_append_left kernel).mpr
    ⟨ns.flatMap (rulesFrom g), hperm.flatMap_right _, hsub.flatMap _⟩

/-- Looking at an item opens the nonterminal at its mark, and changes nothing else. -/
theorem Progress.look (hg : g.Closed) (h : Progress g kernel s) {i : Item} (hi : i ∈ s.items) :
    Progress g kernel (s.look g i) ∧ s.items <+: (s.look g i).items ∧
      (s.look g i).place = s.place ∧
      ∀ n, g.next? i = some (.nonterminal n) → n ∈ (s.look g i).opened := by
  have hclosure := h.subperm.subset hi
  unfold Scan.look
  split
  · rename_i n hnext
    have hn := Grammar.mem_predicted_of_next? hg hclosure hnext
    split
    · rename_i hopened
      refine ⟨h, List.prefix_rfl, rfl, fun m hm ↦ ?_⟩
      cases hnext.symm.trans hm
      exact hopened
    · rename_i hopened
      refine ⟨?_, List.prefix_append .., rfl, fun m hm ↦ ?_⟩
      · constructor
        · rw [h.items_eq]
          simp [rulesFrom]
        · exact List.nodup_cons.mpr ⟨hopened, h.nodup⟩
        · exact List.cons_subset.mpr ⟨hn, h.predicted⟩
        · have hplace := h.place_le
          simp only [List.length_append]
          omega
        · intro p j m hp hj hm
          rw [List.getElem?_append_left (hp.trans_le h.place_le)] at hj
          exact List.mem_cons_of_mem _ (h.looked p j m hp hj hm)
      · cases hnext.symm.trans hm
        exact List.mem_cons_self ..
  · rename_i hnone
    exact ⟨h, List.prefix_rfl, rfl, fun n hn ↦ (hnone n hn).elim⟩

theorem next_of_getElem? {i : Item} (hi : s.items[s.place]? = some i) :
    s.next g = some { s.look g i with place := s.place + 1 } := by
  rw [next, hi]
  rfl

theorem next_of_length_le (h : s.items.length ≤ s.place) : s.next g = none := by
  rw [next, List.getElem?_eq_none h]
  rfl

theorem Progress.next (hg : g.Closed) (h : Progress g kernel s) {i : Item}
    (hi : s.items[s.place]? = some i) :
    Progress g kernel { s.look g i with place := s.place + 1 } := by
  obtain ⟨hlt, hget⟩ := List.getElem?_eq_some_iff.mp hi
  obtain ⟨hlook, hkept, hplace, hopened⟩ := h.look hg (hget ▸ List.getElem_mem hlt)
  constructor
  · exact hlook.items_eq
  · exact hlook.nodup
  · exact hlook.predicted
  · exact Nat.succ_le_of_lt (hlt.trans_le hkept.length_le)
  · intro p j n hp hj hnext
    rcases Nat.lt_succ_iff_lt_or_eq.mp hp with hp | rfl
    · exact hlook.looked p j n (hplace ▸ hp) hj hnext
    · have hsame : (s.look g i).items[s.place]? = some i := by
        obtain ⟨more, hmore⟩ := hkept
        rw [← hmore, List.getElem?_append_left hlt, hi]
      cases hsame.symm.trans hj
      exact hopened n hnext

/-- When all items have been looked at, everything that the kernel predicts is opened. -/
theorem Progress.predicted_subset (hdone : s.items.length ≤ s.place) (h : Progress g kernel s) :
    g.predicted kernel ⊆ s.opened := by
  have hlooked : ∀ i ∈ s.items, ∀ n, g.next? i = some (.nonterminal n) → n ∈ s.opened := by
    intro i hi n hnext
    obtain ⟨p, hp⟩ := List.mem_iff_getElem?.mp hi
    exact h.looked p i n ((List.getElem?_eq_some_iff.mp hp).1.trans_le hdone) hp hnext
  rw [Grammar.predicted_eq]
  refine settle_induction (P := fun ns ↦ ns ⊆ s.opened) ?_ _ ?_
  · intro ns hns n hn
    rcases g.mem_predictMore.mp hn with hn | ⟨m, hm, hn⟩
    · exact hns hn
    · obtain ⟨r, hr, hlhs, hhead⟩ := g.mem_leading.mp hn
      obtain ⟨k, hk⟩ := List.mem_iff_getElem?.mp hr
      refine hlooked ⟨k, 0⟩ ?_ n ((g.next?_zero hk).trans hhead)
      rw [h.items_eq, List.mem_append, List.mem_flatMap]
      exact Or.inr ⟨m, List.mem_reverse.mpr (hns hm),
        List.mem_map_of_mem (g.mem_rulesOf.mpr ⟨r, hk, hlhs⟩)⟩
  · intro n hn
    obtain ⟨i, hi, hnext⟩ := g.mem_marked.mp (Ordered.mem_ofList.mp hn)
    refine hlooked i ?_ n hnext
    rw [h.items_eq]
    exact List.mem_append_left _ hi

theorem Progress.perm (hdone : s.items.length ≤ s.place) (h : Progress g kernel s) :
    s.items.Perm (g.closure kernel) := by
  have hopened : s.opened.reverse.Perm (g.predicted kernel) := by
    apply (List.reverse_perm _).trans
    rw [List.perm_ext_iff_of_nodup h.nodup (g.nodup_predicted kernel)]
    exact fun n ↦ ⟨fun hn ↦ h.predicted hn, fun hn ↦ h.predicted_subset hdone hn⟩
  rw [h.items_eq]
  exact (hopened.flatMap_right _).append_left kernel

end Scan

namespace Grammar

variable {α : Type} {g : Grammar α}

/-- A scan comes to an end with the items of the closure. -/
theorem exists_scan (hg : g.Closed) (kernel : List Item) :
    ∃ items, g.scan kernel = .some items ∧ items.Perm (g.closure kernel) := by
  have hnext : ∀ s : Scan, s.Progress g kernel → Part.some (s.next g) = .some none ∨
      ∃ s', Part.some (s.next g) = .some (some s') ∧ s'.Progress g kernel ∧
        (g.closure kernel).length - s'.place < (g.closure kernel).length - s.place := by
    intro s h
    cases hi : s.items[s.place]? with
    | none => exact Or.inl (congrArg _ (Scan.next_of_length_le (List.getElem?_eq_none_iff.mp hi)))
    | some i =>
      refine Or.inr ⟨_, congrArg _ (Scan.next_of_getElem? hi), h.next hg hi, ?_⟩
      have hlt := (List.getElem?_eq_some_iff.mp hi).1
      have hle := h.subperm.length_le
      simp only
      omega
  obtain ⟨s, hs, h, hlast⟩ := exists_exhaust hnext Scan.progress_start
  refine ⟨s.items, ?_, h.perm ?_⟩
  · rw [scan, hs, Part.map_some]
  · by_contra hlt
    rw [Scan.next_of_getElem? (List.getElem?_eq_getElem (not_le.mp hlt))] at hlast
    cases Part.some_injective hlast

/-! ## What a state leads to -/

theorem successors_eq_moves (kernel : List Item) :
    g.successors kernel = g.moves (g.closure kernel) := rfl

/-- What a state leads to does not depend on the order of its items. -/
theorem moves_congr {items items' : List Item} (h : items.Perm items') :
    g.moves items = g.moves items' := by
  have hmoves := h.filterMap fun i ↦ (g.next? i).map fun x ↦ (x, i.advance)
  have hkeys := Ordered.ofList_congr fun x ↦ (hmoves.map Prod.fst).mem_iff (a := x)
  unfold moves
  simp only [hkeys]
  refine List.map_congr_left fun x _ ↦ congrArg (Prod.mk x) ?_
  exact Ordered.ofList_congr fun i ↦ (hmoves.filterMap _).mem_iff

end Grammar

end PlainLedger
