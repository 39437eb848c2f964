import PlainLedger.Proofs.Machine.Walk

/-!
# Counting errors

A machine reports an error where a token is unexpected, and only if it has not gone on after another
one just before. If no completed rule is rejected, it does so nowhere else, except that it tells of
a token that is none when it reads it.
-/

namespace PlainLedger

variable {α V σ : Type}

/-- Errors are counted as they are reported, and no completed rule is an error. -/
structure Reducer.Tallies (r : Reducer α V σ) (count : σ → Nat) : Prop where
  ofToken (t : Token) (m : σ) : count (r.ofToken t m).2 = count m
  report (d : Diagnostic) (m : σ) : count (r.report d m) = count m + if d.isError then 1 else 0
  release (v : V) (m : σ) : count (r.release v m) = count m
  reduce (a : α) (red : Reduction V) (m : σ) : count (r.reduce a red m).2 = count m
  granted (a : α) (red : Reduction V) (m : σ) (message : String) :
    (r.reduce a red m).1 ≠ .rejected message

/-- The run goes on, or has come to its end, with so many errors. -/
def Step.Counts (count : σ → Nat) (n : Nat) (s : Step V σ) : Prop :=
  s.Post (fun c ↦ count c.memory = n) (fun _ c ↦ count c.memory = n) fun _ _ ↦ True

namespace Config

variable {e : Engine α} {r : Reducer α V σ} {count : σ → Nat} (h : r.Tallies count)

include h

theorem count_popped (popped : List (Slot V)) (c : Config V σ) :
    count (popped.foldl (fun c x ↦ (c.release r x.value).record (.pop x)) c).memory =
      count c.memory := by
  induction popped generalizing c with
  | nil => rfl
  | cons x popped ih => exact (ih _).trans (h.release x.value c.memory)

omit h in
theorem counts_push (n : Nat) (v : V) (span : Span) (c : Config V σ) :
    (c.push r n v span).Counts count (count c.memory) :=
  push_cases (P := Step.Counts count (count c.memory)) (fun _ _ ↦ rfl) fun _ ↦ trivial

theorem counts_recover (start : Span) (c : Config V σ) :
    (c.recover e r start).Counts count (count c.memory) := by
  have hpopped := count_popped h (unwind e c.stack.slots).1 { c with
    stack := { c.stack with slots := (unwind e c.stack.slots).2 }
    quiet := e.options.recoveryShifts }
  unfold recover
  dsimp only
  split
  · trivial
  · split
    · trivial
    · rw [← hpopped]
      exact counts_push _ _ _ _

theorem counts_reduce (k : Nat) (c : Config V σ) :
    (c.reduce e r k).Counts count (count c.memory) := by
  cases hrule : e.grammar.rules[k]? with
  | none =>
    unfold Config.reduce
    rw [hrule]
    trivial
  | some p =>
    have hcount := h.reduce p.action (.ofSlots k p.rhs.length c.stack.slots) c.memory
    have hgranted := h.granted p.action (.ofSlots k p.rhs.length c.stack.slots) c.memory
    rw [reduce_eq hrule rfl]
    generalize r.reduce p.action (.ofSlots k p.rhs.length c.stack.slots) c.memory = out at *
    obtain ⟨verdict, m⟩ := out
    cases verdict with
    | value v =>
      dsimp only
      unfold goto
      split
      · trivial
      · split
        · trivial
        · rw [← hcount]
          exact counts_push _ _ _ _
    | rejected message => exact (hgranted message rfl).elim
    | fatal cause => trivial

/-- An unexpected token is an error, unless the machine is quiet. -/
theorem count_complain (n : Nat) {t : Token} (hlex : t.kind ≠ .lexError) (c : Config V σ) :
    count (c.complain e r n t).memory = count c.memory + if c.quiet = 0 then 1 else 0 := by
  have hsilent : t.kind.isSilent = false := by simpa [Terminal.isSilent] using hlex
  unfold complain
  rw [hsilent]
  by_cases hquiet : c.quiet = 0
  · rw [if_pos hquiet, if_pos (by simpa using hquiet)]
    exact h.report _ _
  · rw [if_neg hquiet, if_neg (by simpa using hquiet)]
    rfl

theorem counts_fail (n : Nat) {c : Config V σ} (hlex : c.upcoming ≠ .lexError) :
    (c.fail e r n).Counts count (count c.memory + if c.quiet = 0 then 1 else 0) := by
  obtain ⟨hmemory, -⟩ := peek_of_ne_lexError (e := e) (r := r) hlex
  have hcount := count_complain h (e := e) n (t := (c.peek e r).1) (by rwa [kind_peek])
    (c.peek e r).2
  rw [hmemory, quiet_peek] at hcount
  unfold fail
  dsimp only
  rw [← hcount]
  split
  · split
    · trivial
    · exact counts_recover h _ _
  · exact counts_recover h _ _

/-- A step reports an error where the next token is unexpected and the machine is not quiet. -/
theorem counts_step {c : Config V σ} {x : Slot V} {rest : List (Slot V)} {row : Row}
    (hslots : c.stack.slots = x :: rest) (hrow : e.row? x.state = some row)
    (hlex : c.upcoming ≠ .lexError) :
    (c.step e r).Counts count
      (count c.memory + if row.decide c.upcoming = none ∧ c.quiet = 0 then 1 else 0) := by
  obtain ⟨hmemory, -⟩ := consult_of_ne_lexError (e := e) (r := r) row hlex
  rw [step_eq e r hslots hrow, kind_peek]
  cases hdecide : row.decide c.upcoming with
  | none =>
    have hup : (c.consult e r row).upcoming = c.upcoming := by
      unfold upcoming
      rw [pending_consult]
    have hfail := counts_fail h (e := e) x.state (c := c.consult e r row) (by rwa [hup])
    rw [hmemory, quiet_consult] at hfail
    simpa using hfail
  | some a =>
    rw [if_neg (fun h ↦ nomatch h.1), Nat.add_zero, ← hmemory]
    cases a with
    | shift n =>
      dsimp only
      unfold shift
      split
      · trivial
      · rw [← h.ofToken]
        exact counts_push _ _ _ _
    | reduce k => exact counts_reduce h _ _
    | accept =>
      dsimp only
      unfold accept
      split
      · trivial
      · rfl

end Config

end PlainLedger
