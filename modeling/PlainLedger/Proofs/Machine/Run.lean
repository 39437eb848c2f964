import PlainLedger.Proofs.Machine.Spelled

/-!
# Runs

A run begins with an empty text on the stack. What every step keeps holds at its end, where the
values that are left on the stack have been given back.
-/

namespace PlainLedger

variable {α V σ : Type}

namespace Engine

variable (e : Engine α) (r : Reducer α V σ) {P : Config V σ → Prop} {A : V → Config V σ → Prop}
  {B : Abort → Config V σ → Prop}

variable {r} in
/-- What is left on the stack is given back, from the top. -/
theorem memory_clear (c : Config V σ) :
    (clear r c).memory = c.stack.slots.foldl (fun m x ↦ r.release x.value m) c.memory := by
  unfold clear
  have hslots : ∀ (slots : List (Slot V)) (c : Config V σ),
      (slots.foldl (fun c x ↦ c.release r x.value) c).memory =
        slots.foldl (fun m x ↦ r.release x.value m) c.memory := by
    intro slots
    induction slots with
    | nil => exact fun _ ↦ rfl
    | cons x slots ih => exact fun c ↦ ih (c.release r x.value)
  exact hslots _ _

variable {r} in
@[simp] theorem log_clear (c : Config V σ) : (clear r c).log = c.log := by
  unfold clear
  have hslots : ∀ (slots : List (Slot V)) (c : Config V σ),
      (slots.foldl (fun c x ↦ c.release r x.value) c).log = c.log := by
    intro slots
    induction slots with
    | nil => exact fun _ ↦ rfl
    | cons x slots ih => exact fun c ↦ ih (c.release r x.value)
  exact hslots _ _

theorem noise_clear (c : Config V σ) : r.Noise c.memory (clear r c).memory := by
  rw [memory_clear]
  have hslots : ∀ (slots : List (Slot V)) (m : σ),
      r.Noise m (slots.foldl (fun m x ↦ r.release x.value m) m) := by
    intro slots
    induction slots with
    | nil => exact fun m ↦ .refl m
    | cons x slots ih => exact fun m ↦ ((Reducer.Noise.refl m).release _).trans (ih _)
  exact hslots _ _

/-- Only the bottom of the stack is there in the beginning. -/
theorem post_start {input : List Token} {m : σ}
    (hrun : ∀ c : Config V σ, c.stack.slots = [⟨0, r.blank, .start⟩] → c.ahead? = none →
      c.input = input → c.exhausted = false → c.quiet = 0 → c.memory = m → P c)
    (hover : ∀ d (c : Config V σ), r.Noise m c.memory → B (.stackOverflow d) c) :
    (e.start r input m).Post P A B := by
  unfold start
  cases hcreate : Stack.create (V := V) e.options.initialStackDepth e.options.maxStackDepth with
  | error overflow => exact hover _ _ (.refl _)
  | ok stack =>
    dsimp only
    refine Config.push_cases (P := Step.Post P A B) ?_ ?_
    · intro stack' hpush
      rw [show (Config.stack _) = stack from rfl, Stack.slots_create hcreate] at hpush
      exact hrun _ hpush rfl rfl rfl rfl rfl
    · intro d
      exact hover d _ ((Reducer.Noise.refl _).release _)

/-- How a run can end. -/
inductive Ends (P : Config V σ → Prop) (A : V → Config V σ → Prop)
    (B : Abort → Config V σ → Prop) : Outcome V × Config V σ → Prop where
  | accepted {v : V} {c : Config V σ} (h : A v c) : Ends P A B (.accepted v, clear r c)
  | aborted {cause : Abort} {c : Config V σ} {d : Diagnostic} (h : B cause c)
      (hd : d.isError = true) : Ends P A B (.aborted cause, (clear r c).report r d)
  | unfinished {c : Config V σ} (h : P c) : Ends P A B (.unfinished, c)

/-- What has ended is finished. -/
theorem finish_ne_unfinished {s : Step V σ}
    (h : s.Post (fun _ ↦ False) (fun _ _ ↦ True) (fun _ _ ↦ True)) :
    (e.finish r s).1 ≠ .unfinished := by
  intro hfinish
  cases s with
  | running c => exact h
  | accepted v c => cases hfinish
  | aborted cause c => cases hfinish

theorem ends_run {budget : Nat} {input : List Token} {m : σ}
    (hstart : (e.start r input m).Post P A B) (hstep : ∀ c, P c → (c.step e r).Post P A B) :
    Ends r P A B (e.run r budget input m) := by
  have hsteps := e.post_steps r hstep budget hstart
  unfold run
  cases hlast : e.steps r budget (e.start r input m) with
  | running c =>
    rw [hlast] at hsteps
    exact .unfinished hsteps
  | accepted v c =>
    rw [hlast] at hsteps
    exact .accepted hsteps
  | aborted cause c =>
    rw [hlast] at hsteps
    exact .aborted hsteps rfl

end Engine

end PlainLedger
