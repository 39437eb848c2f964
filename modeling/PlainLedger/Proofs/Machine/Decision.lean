import PlainLedger.Proofs.Machine.Moves

/-!
# The decision of a step

Whatever the tables are, a step carries out what the row of the topmost state decides. A state that
the tables do not know has an empty row, which decides nothing.
-/

namespace PlainLedger

variable {α V σ : Type}

def Engine.rowAt (e : Engine α) (n : Nat) : Row := (e.row? n).getD ⟨[], none, []⟩

namespace Config

variable (e : Engine α) (r : Reducer α V σ)

/-- What comes of a decision for the topmost state. -/
def carryOut (n : Nat) (c : Config V σ) : Option Action → Step V σ
  | some (.shift m) => c.shift r m
  | some (.reduce k) => c.reduce e r k
  | some .accept => c.accept
  | none => c.fail e r n

variable {e r}

theorem step_of_nil {c : Config V σ} (hslots : c.stack.slots = []) :
    c.step e r = .aborted (.defect .emptyStack) c := by
  have htop : c.stack.top? = none := by simp [Stack.top?, hslots]
  unfold step
  rw [htop]

theorem step_of_cons {c : Config V σ} {x : Slot V} {rest : List (Slot V)}
    (hslots : c.stack.slots = x :: rest) :
    c.step e r = (c.consult e r (e.rowAt x.state)).carryOut e r x.state
      ((e.rowAt x.state).decide (c.peek e r).1.kind) := by
  have htop : c.stack.top? = some x := by simp [Stack.top?, hslots]
  unfold step consult
  rw [htop]
  dsimp only
  rw [← Engine.rowAt]
  by_cases h : (e.rowAt x.state).needsLookahead = true
  · simp only [h, if_true]
    rfl
  · rw [if_neg h, if_neg h, Row.decide_of_not_needsLookahead (eq_false_of_ne_true h)]
    rfl

/-! ## Recovery -/

variable (e r) in
/-- The slots that recovery cannot go on from have been taken off the stack. -/
def unwound (c : Config V σ) : Config V σ :=
  (unwind e c.stack.slots).1.foldl (fun c x ↦ (c.release r x.value).record (.pop x))
    { c with
      stack := { c.stack with slots := (unwind e c.stack.slots).2 }
      quiet := e.options.recoveryShifts }

/-- The span of the text that is skipped. -/
def skippedSpan (e : Engine α) (start : Span) (c : Config V σ) : Span :=
  Span.cover (((unwind e c.stack.slots).1.getLast?.map Slot.span).getD start) c.currentSpan

theorem unwound_eq (c : Config V σ) :
    ∃ m log, c.unwound e r =
      { c with
        stack := { c.stack with slots := (unwind e c.stack.slots).2 }
        quiet := e.options.recoveryShifts
        memory := m
        log } := by
  obtain ⟨m, log, heq, -⟩ := exists_of_popped (r := r) (unwind e c.stack.slots).1
    { c with
      stack := { c.stack with slots := (unwind e c.stack.slots).2 }
      quiet := e.options.recoveryShifts }
  exact ⟨m, log, heq⟩

theorem recover_eq (start : Span) (c : Config V σ) :
    c.recover e r start =
      match (unwind e c.stack.slots).2 with
      | [] => .aborted (.defect .emptyStack) (c.unwound e r)
      | x :: _ =>
        match e.errorShift? x.state with
        | none =>
          .aborted (.unrecoverable e.context.file ((c.unwound e r).currentLine e)) (c.unwound e r)
        | some n => ((c.unwound e r).record (.resume n (c.skippedSpan e start))).push r n r.blank
            (c.skippedSpan e start) := by
  obtain ⟨m, log, heq⟩ := c.unwound_eq (e := e) (r := r)
  have hspan : (c.unwound e r).currentSpan = c.currentSpan := by
    rw [heq]
    rfl
  unfold skippedSpan
  rw [← hspan]
  rfl

end Config

end PlainLedger
