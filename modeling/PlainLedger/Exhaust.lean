import Mathlib.Data.PFun

/-!
# Loops without a bound

Nothing limits how often a loop of this kind goes round. It has a result where it comes to an end,
and a measure that falls on every round is a proof that it does.
-/

namespace PlainLedger

variable {σ : Type}

/-- Goes round until there is nothing left to do. There is no result if that never happens, or if
one round has none. -/
def exhaust (next : σ → Part (Option σ)) (s : σ) : Part σ :=
  PFun.fix (fun s ↦ (next s).map fun s' ↦ s'.elim (Sum.inl s) Sum.inr) s

section Exhaust

variable {next : σ → Part (Option σ)} {s s' : σ}

theorem exhaust_of_none (h : next s = .some none) : exhaust next s = .some s := by
  apply Part.eq_some_iff.mpr
  apply PFun.fix_stop
  simp [h]

theorem exhaust_of_some (h : next s = .some (some s')) : exhaust next s = exhaust next s' := by
  apply PFun.fix_fwd_eq
  simp [h]

/-- A loop comes to an end if each round lowers a measure, with whatever the rounds keep. -/
theorem exists_exhaust {P : σ → Prop} {μ : σ → Nat}
    (hnext : ∀ s, P s → next s = .some none ∨ ∃ s', next s = .some (some s') ∧ P s' ∧ μ s' < μ s)
    (hs : P s) : ∃ r, exhaust next s = .some r ∧ P r ∧ next r = .some none := by
  induction hμ : μ s using Nat.strongRecOn generalizing s with
  | _ n ih =>
    rcases hnext s hs with hnone | ⟨s', hsome, hs', hlt⟩
    · exact ⟨s, exhaust_of_none hnone, hs, hnone⟩
    · rw [exhaust_of_some hsome]
      exact ih (μ s') (hμ ▸ hlt) hs' rfl

end Exhaust

variable {α : Type} [DecidableEq α]

/-- Repeats a step until it changes nothing. -/
def untilStill (step : α → α) : α → Part α :=
  exhaust fun a ↦ .some (if step a = a then none else some (step a))

/-- A step that raises a bounded measure whenever it changes something comes to rest. -/
theorem exists_untilStill {step : α → α} {P : α → Prop} {μ : α → Nat} {bound : Nat}
    (hstep : ∀ a, P a → P (step a)) (hle : ∀ a, P a → μ a ≤ bound)
    (hlt : ∀ a, P a → step a ≠ a → μ a < μ (step a)) {a : α} (ha : P a) :
    ∃ b, untilStill step a = .some b ∧ P b ∧ step b = b := by
  have hnext : ∀ a, P a →
      Part.some (if step a = a then none else some (step a)) = .some none ∨
        ∃ a', Part.some (if step a = a then none else some (step a)) = .some (some a') ∧
          P a' ∧ bound - μ a' < bound - μ a := by
    intro a ha
    by_cases hstill : step a = a
    · exact Or.inl (by rw [if_pos hstill])
    · have hrises := hlt a ha hstill
      have hbound := hle _ (hstep a ha)
      exact Or.inr ⟨step a, by rw [if_neg hstill], hstep a ha, by omega⟩
  obtain ⟨b, hb, hP, hstill⟩ := exists_exhaust hnext ha
  refine ⟨b, hb, hP, ?_⟩
  by_contra hne
  rw [if_neg hne] at hstill
  cases Part.some_injective hstill

end PlainLedger
