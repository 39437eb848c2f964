/-!
# Settling

Repeating a step until it changes nothing. The budget `n` bounds the repetitions; where each
change raises a bounded measure, a budget of that bound reaches a fixed point.
-/

namespace PlainLedger

variable {α : Type} [DecidableEq α]

def settle (step : α → α) : Nat → α → α
  | 0, a => a
  | n + 1, a =>
    let b := step a
    if b = a then a else settle step n b

theorem settle_succ (step : α → α) (n : Nat) (a : α) :
    settle step (n + 1) a = if step a = a then a else settle step n (step a) := rfl

/-- What the step keeps, settling keeps. -/
theorem settle_induction {step : α → α} {P : α → Prop} (hstep : ∀ a, P a → P (step a))
    (n : Nat) {a : α} (ha : P a) : P (settle step n a) := by
  induction n generalizing a with
  | zero => exact ha
  | succ n ih =>
    rw [settle_succ]
    split
    · exact ha
    · exact ih (hstep a ha)

theorem step_settle {step : α → α} {P : α → Prop} {μ : α → Nat} {bound : Nat}
    (hstep : ∀ a, P a → P (step a)) (hle : ∀ a, P a → μ a ≤ bound)
    (hlt : ∀ a, P a → step a ≠ a → μ a < μ (step a)) {n : Nat} {a : α} (ha : P a)
    (hn : bound < μ a + n) : step (settle step n a) = settle step n a := by
  induction n generalizing a with
  | zero =>
    have := hle a ha
    omega
  | succ n ih =>
    rw [settle_succ]
    split
    · assumption
    · rename_i hne
      have := hlt a ha hne
      exact ih (hstep a ha) (by omega)

end PlainLedger
