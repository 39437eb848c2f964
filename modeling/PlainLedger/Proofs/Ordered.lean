import Mathlib.Data.List.Sort
import PlainLedger.Ordered

/-!
# Ascending lists over a strict order

An ascending list holds each of its members once and is determined by them.
-/

namespace PlainLedger.Ordered

variable {α : Type} [LT α] [DecidableLT α] [DecidableEq α] [IsStrictTotalOrder α (· < ·)]

theorem ascending_insert {x : α} {xs : List α} (h : xs.Pairwise (· < ·)) :
    (insert x xs).Pairwise (· < ·) := by
  induction xs with
  | nil => simp [insert]
  | cons y ys ih =>
    rw [List.pairwise_cons] at h
    simp only [insert]
    by_cases hxy : x = y
    · rw [if_pos hxy]
      exact List.pairwise_cons.mpr h
    · rw [if_neg hxy]
      by_cases hlt : x < y
      · rw [if_pos hlt]
        refine List.pairwise_cons.mpr ⟨?_, List.pairwise_cons.mpr h⟩
        intro z hz
        rcases List.mem_cons.mp hz with rfl | hz
        · exact hlt
        · exact IsTrans.trans _ _ _ hlt (h.1 z hz)
      · rw [if_neg hlt]
        refine List.pairwise_cons.mpr ⟨?_, ih h.2⟩
        intro z hz
        rcases mem_insert.mp hz with rfl | hz
        · rcases trichotomous_of (· < ·) z y with hlt' | heq | hgt
          · exact (hlt hlt').elim
          · exact (hxy heq).elim
          · exact hgt
        · exact h.1 z hz

theorem ascending_ofList (xs : List α) : (ofList xs).Pairwise (· < ·) := by
  induction xs with
  | nil => simp [ofList]
  | cons x xs ih => exact ascending_insert ih

theorem ofList_congr {xs ys : List α} (h : ∀ x, x ∈ xs ↔ x ∈ ys) : ofList xs = ofList ys := by
  refine (ascending_ofList xs).eq_of_mem_iff (ascending_ofList ys) fun x ↦ ?_
  rw [mem_ofList, mem_ofList, h x]

omit [DecidableLT α] [DecidableEq α] in
/-- An ascending list that has gained members has become longer. -/
theorem length_lt_of_subset {xs ys : List α} (hx : xs.Pairwise (· < ·))
    (hy : ys.Pairwise (· < ·)) (hsub : xs ⊆ ys) (hne : ys ≠ xs) : xs.length < ys.length := by
  have hxn : xs.Nodup := hx.imp fun h ↦ ne_of_irrefl h
  have hsubperm : xs.Subperm ys := List.subperm_of_subset hxn hsub
  refine lt_of_le_of_ne hsubperm.length_le fun heq ↦ hne ?_
  have hperm : xs.Perm ys := hsubperm.perm_of_length_le heq.ge
  exact (hx.eq_of_mem_iff hy fun z ↦ hperm.mem_iff).symm

end PlainLedger.Ordered
