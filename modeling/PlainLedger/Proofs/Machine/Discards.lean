import PlainLedger.Proofs.Machine.Record

/-!
# Tokens that are dropped

A step drops the token ahead if and only if it has no action for it and nothing has been shifted
since the machine last went on after an error, and never an end of input. Nothing else is dropped.
-/

namespace PlainLedger

variable {α V σ : Type}

/-- The token that an event drops. -/
def Event.discarded? : Event V → Option Token
  | .discard t => some t
  | _ => none

namespace Config

variable (e : Engine α) (r : Reducer α V σ)

/-- The tokens that have been dropped. -/
def discarded (c : Config V σ) : List Token := c.log.toList.filterMap Event.discarded?

theorem mem_discarded {c : Config V σ} {t : Token} : t ∈ c.discarded ↔ .discard t ∈ c.log := by
  unfold discarded
  rw [List.mem_filterMap, Array.mem_def]
  constructor
  · rintro ⟨ev, hev, ht⟩
    cases ev with
    | discard u =>
      cases ht
      exact hev
    | _ => cases ht
  · exact fun h ↦ ⟨_, h, rfl⟩

theorem discarded_record (ev : Event V) (c : Config V σ) :
    (c.record ev).discarded = c.discarded ++ ev.discarded?.toList := by
  unfold discarded record
  rw [Array.toList_push, List.filterMap_append]
  cases h : ev.discarded? <;> simp [h]

/-- What a step drops in the state. -/
def dropped (n : Nat) (c : Config V σ) : List Token :=
  if (e.rowAt n).decide c.upcoming = none ∧ c.quiet = e.options.recoveryShifts ∧
      c.upcoming ≠ .endOfInput then [(c.peek e r).1]
  else []

@[simp] theorem discarded_report (d : Diagnostic) (c : Config V σ) :
    (c.report r d).discarded = c.discarded :=
  (discarded_record (.report d) c).trans (List.append_nil _)

@[simp] theorem discarded_peek (c : Config V σ) : (c.peek e r).2.discarded = c.discarded :=
  filterMap_log_peek (fun ev hev ↦ by cases ev <;> first | rfl | cases hev) c

@[simp] theorem discarded_consult (row : Row) (c : Config V σ) :
    (c.consult e r row).discarded = c.discarded := by
  unfold consult
  split
  · exact discarded_peek e r c
  · rfl

theorem discarded_push (n : Nat) (v : V) (span : Span) (c : Config V σ) :
    (c.push r n v span).config.discarded = c.discarded := by
  unfold push
  split <;> rfl

theorem discarded_shift (n : Nat) (c : Config V σ) :
    (c.shift r n).config.discarded = c.discarded := by
  unfold shift
  split
  · rfl
  · exact (discarded_push r _ _ _ _).trans ((discarded_record _ _).trans (List.append_nil _))

theorem discarded_popped (popped : List (Slot V)) (c : Config V σ) :
    (popped.foldl (fun c x ↦ (c.release r x.value).record (.pop x)) c).discarded =
      c.discarded := by
  induction popped generalizing c with
  | nil => rfl
  | cons x popped ih =>
    exact (ih _).trans ((discarded_record (.pop x) (c.release r x.value)).trans (List.append_nil _))

theorem discarded_recover (start : Span) (c : Config V σ) :
    (c.recover e r start).config.discarded = c.discarded := by
  have hunwound : (c.unwound e r).discarded = c.discarded := discarded_popped r _ _
  rw [recover_eq]
  split
  · exact hunwound
  · split
    · exact hunwound
    · rw [discarded_push]
      exact (discarded_record _ _).trans ((List.append_nil _).trans hunwound)

theorem discarded_goto (lhs rule : Nat) (v : V) (span : Span) (c : Config V σ) :
    (c.goto e r lhs rule v span).config.discarded = c.discarded := by
  unfold goto
  split
  · rfl
  · split
    · rfl
    · exact discarded_push r _ v span c

theorem discarded_reduce (k : Nat) (c : Config V σ) :
    (c.reduce e r k).config.discarded = c.discarded := by
  cases hrule : e.grammar.rules[k]? with
  | none =>
    unfold reduce
    rw [hrule]
    rfl
  | some p =>
    have hreduced : ∀ out, (c.reduced k p out).discarded = c.discarded :=
      fun out ↦ (discarded_record (.reduce _ out.1) c).trans (List.append_nil _)
    rw [reduce_eq hrule rfl]
    split
    · exact (discarded_goto e r _ _ _ _ _).trans (hreduced _)
    · exact (discarded_recover e r _ _).trans ((discarded_report r _ _).trans (hreduced _))
    · exact hreduced _

theorem discarded_complain (n : Nat) (t : Token) (c : Config V σ) :
    (c.complain e r n t).discarded = c.discarded := by
  unfold complain
  split
  · exact discarded_report r _ c
  · rfl

theorem discarded_fail {n : Nat} {c : Config V σ}
    (hdecide : (e.rowAt n).decide c.upcoming = none) :
    (c.fail e r n).config.discarded = c.discarded ++ c.dropped e r n := by
  have hcomplain := (discarded_complain e r n (c.peek e r).1 (c.peek e r).2).trans
    (discarded_peek e r c)
  have hquiet : ((c.peek e r).2.complain e r n (c.peek e r).1).quiet = c.quiet := by
    rw [quiet_complain, quiet_peek]
  unfold fail dropped
  dsimp only
  rw [hquiet, kind_peek]
  by_cases hq : c.quiet = e.options.recoveryShifts
  · rw [if_pos hq]
    by_cases hend : c.upcoming = .endOfInput
    · rw [if_pos hend, if_neg fun h ↦ h.2.2 hend, List.append_nil]
      exact hcomplain
    · rw [if_neg hend, if_pos ⟨hdecide, hq, hend⟩, discarded_recover]
      exact (discarded_record _ _).trans (congrArg (· ++ _) hcomplain)
  · rw [if_neg hq, if_neg fun h ↦ hq h.2.1, List.append_nil, discarded_recover]
    exact hcomplain

/-- What a step drops. -/
theorem discarded_step {c : Config V σ} {x : Slot V} {rest : List (Slot V)}
    (hslots : c.stack.slots = x :: rest) :
    (c.step e r).config.discarded = c.discarded ++ c.dropped e r x.state := by
  have hupcoming : (c.consult e r (e.rowAt x.state)).upcoming = c.upcoming := by
    unfold upcoming
    rw [pending_consult]
  rw [step_of_cons hslots, kind_peek]
  cases hdecide : (e.rowAt x.state).decide c.upcoming with
  | none =>
    have hdropped : (c.consult e r (e.rowAt x.state)).dropped e r x.state =
        c.dropped e r x.state := by
      unfold dropped
      rw [hupcoming, quiet_consult, peek_consult]
    rw [← hdropped, ← discarded_consult e r (e.rowAt x.state) c]
    exact discarded_fail e r (hupcoming ▸ hdecide)
  | some a =>
    have hnothing : c.dropped e r x.state = [] := if_neg fun h ↦ by
      rw [hdecide] at h
      cases h.1
    rw [hnothing, List.append_nil, ← discarded_consult e r (e.rowAt x.state) c]
    cases a with
    | shift n => exact discarded_shift r n _
    | reduce k => exact discarded_reduce e r k _
    | accept =>
      change (accept _).config.discarded = _
      unfold accept
      split <;> rfl

end Config

end PlainLedger
