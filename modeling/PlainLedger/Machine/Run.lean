import PlainLedger.Machine.Step

/-!
# Runs of the machine

A run takes steps until a text is accepted or given up, or its budget of steps is used up. What is
then left on the stack is given back to the reducer, and giving up is reported.
-/

namespace PlainLedger

inductive Outcome (V : Type) where
  | accepted (v : V)
  | aborted (cause : Abort)
  /-- The budget was used up. -/
  | unfinished

namespace Engine

variable {α V σ : Type} (e : Engine α) (r : Reducer α V σ)

/-- The machine in its first state, before any token has been read. -/
def start (input : List Token) (memory : σ) : Step V σ :=
  let c : Config V σ :=
    { stack := .none (max e.options.maxStackDepth 1)
      ahead? := none
      input
      exhausted := false
      lastSpan := .start
      quiet := 0
      memory
      log := #[] }
  match Stack.create e.options.initialStackDepth e.options.maxStackDepth with
  | .error overflow => .aborted (.stackOverflow overflow.depth) c
  | .ok stack => { c with stack }.push r 0 r.blank .start

def steps : Nat → Step V σ → Step V σ
  | budget + 1, .running c => steps budget (c.step e r)
  | _, s => s

def clear (c : Config V σ) : Config V σ :=
  c.stack.slots.foldl (fun c x ↦ c.release r x.value)
    { c with stack := { c.stack with slots := [] } }

def finish : Step V σ → Outcome V × Config V σ
  | .running c => (.unfinished, c)
  | .accepted v c => (.accepted v, clear r c)
  | .aborted cause c =>
    let c := clear r c
    (.aborted cause,
      c.report r (Config.diagnostic e .fatal (c.currentLine e) cause.message))

def run (budget : Nat) (input : List Token) (memory : σ) : Outcome V × Config V σ :=
  e.finish r (e.steps r budget (e.start r input memory))

@[simp] theorem steps_zero (s : Step V σ) : e.steps r 0 s = s := by
  cases s <;> rfl

@[simp] theorem steps_succ_running (n : Nat) (c : Config V σ) :
    e.steps r (n + 1) (.running c) = e.steps r n (c.step e r) := rfl

@[simp] theorem steps_accepted (n : Nat) (v : V) (c : Config V σ) :
    e.steps r n (.accepted v c) = .accepted v c := by
  cases n <;> rfl

@[simp] theorem steps_aborted (n : Nat) (cause : Abort) (c : Config V σ) :
    e.steps r n (.aborted cause c) = .aborted cause c := by
  cases n <;> rfl

theorem steps_add (m n : Nat) (s : Step V σ) :
    e.steps r (m + n) s = e.steps r n (e.steps r m s) := by
  induction m generalizing s with
  | zero => simp
  | succ m ih =>
    cases s with
    | running c =>
      rw [Nat.succ_add]
      exact ih _
    | accepted v c => simp
    | aborted cause c => simp

end Engine

end PlainLedger
