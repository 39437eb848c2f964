import PlainLedger.Proofs.Machine.Record
import PlainLedger.Proofs.Machine.Trace

/-!
# Recoveries

How often a machine has gone on after an error can be counted in its record. A step goes on after
an error once at most, and not at all if it completes a rule that the reducer has a value for.
-/

namespace PlainLedger

variable {α V σ : Type}

/-- The machine goes on after an error. -/
def Event.isResume : Event V → Bool
  | .resume _ _ => true
  | _ => false

namespace Config

/-- How often the machine has gone on after an error. -/
def recoveries (c : Config V σ) : Nat := c.log.countP Event.isResume

variable (e : Engine α) (r : Reducer α V σ)

theorem recoveries_record (ev : Event V) (c : Config V σ) :
    (c.record ev).recoveries = c.recoveries + if ev.isResume then 1 else 0 :=
  Array.countP_push ..

@[simp] theorem recoveries_report (d : Diagnostic) (c : Config V σ) :
    (c.report r d).recoveries = c.recoveries :=
  recoveries_record (.report d) c

@[simp] theorem recoveries_read (c : Config V σ) :
    (c.read e r).2.recoveries = c.recoveries := by
  unfold read
  split
  · rfl
  · split
    · exact recoveries_record (.pull none) c
    · rename_i t rest hinput
      have hpull : ({ c with input := rest }.record (.pull (some t))).recoveries =
          c.recoveries := recoveries_record (.pull (some t)) _
      dsimp only
      split
      · exact (recoveries_report r _ _).trans hpull
      · exact hpull

@[simp] theorem recoveries_peek (c : Config V σ) :
    (c.peek e r).2.recoveries = c.recoveries := by
  unfold peek
  split
  · rfl
  · exact c.recoveries_read e r

@[simp] theorem recoveries_consult (row : Row) (c : Config V σ) :
    (c.consult e r row).recoveries = c.recoveries := by
  unfold consult
  split
  · exact c.recoveries_peek e r
  · rfl

theorem recoveries_push (n : Nat) (v : V) (span : Span) (c : Config V σ) :
    (c.push r n v span).config.recoveries = c.recoveries := by
  unfold push
  split <;> rfl

theorem recoveries_shift (n : Nat) (c : Config V σ) :
    (c.shift r n).config.recoveries = c.recoveries := by
  unfold shift
  split
  · rfl
  · rename_i t _
    have htaken (v : V) (m : σ) : (c.taken t v m).recoveries = c.recoveries :=
      recoveries_record (.shift t v) { c with ahead? := none, quiet := c.quiet - 1, memory := m }
    exact (recoveries_push r _ _ _ _).trans (htaken _ _)

theorem recoveries_goto (lhs rule : Nat) (v : V) (span : Span) (c : Config V σ) :
    (c.goto e r lhs rule v span).config.recoveries = c.recoveries := by
  unfold goto
  split
  · rfl
  · split
    · rfl
    · exact recoveries_push r _ _ _ c

theorem recoveries_popped (popped : List (Slot V)) (c : Config V σ) :
    (popped.foldl (fun c x ↦ (c.release r x.value).record (.pop x)) c).recoveries =
      c.recoveries := by
  induction popped generalizing c with
  | nil => rfl
  | cons x popped ih =>
    have hpop := recoveries_record (.pop x) (c.release r x.value)
    exact (ih _).trans hpop

theorem recoveries_recover_le (start : Span) (c : Config V σ) :
    (c.recover e r start).config.recoveries ≤ c.recoveries + 1 := by
  have hpopped := recoveries_popped r (unwind e c.stack.slots).1
    { c with
      stack := { c.stack with slots := (unwind e c.stack.slots).2 }
      quiet := e.options.recoveryShifts }
  unfold recover
  dsimp only
  split
  · exact Nat.le_succ_of_le hpopped.le
  · split
    · exact Nat.le_succ_of_le hpopped.le
    · rw [recoveries_push, recoveries_record, hpopped]
      exact le_rfl

theorem recoveries_complain (n : Nat) (t : Token) (c : Config V σ) :
    (c.complain e r n t).recoveries = c.recoveries := by
  unfold complain
  split
  · exact recoveries_report r _ c
  · rfl

theorem recoveries_fail_le (n : Nat) (c : Config V σ) :
    (c.fail e r n).config.recoveries ≤ c.recoveries + 1 := by
  have hcomplain := (recoveries_complain e r n (c.peek e r).1 (c.peek e r).2).trans
    (c.recoveries_peek e r)
  unfold fail
  dsimp only
  split
  · split
    · exact Nat.le_succ_of_le hcomplain.le
    · have hdiscard := recoveries_record (.discard (c.peek e r).1)
        { (c.peek e r).2.complain e r n (c.peek e r).1 with ahead? := none }
      refine (recoveries_recover_le e r _ _).trans ?_
      rw [hdiscard]
      exact Nat.succ_le_succ hcomplain.le
  · refine (recoveries_recover_le e r _ _).trans ?_
    rw [hcomplain]

variable {e r}

theorem recoveries_reduced (k : Nat) (p : Rule α) (out : Verdict V × σ) (c : Config V σ) :
    (c.reduced k p out).recoveries = c.recoveries :=
  Array.countP_push ..

/-- A completed rule that has a value is no error. -/
theorem recoveries_reduce_of_value {c : Config V σ} {k : Nat} {p : Rule α} {v : V} {m : σ}
    (hrule : e.grammar.rules[k]? = some p)
    (hout : r.reduce p.action (.ofSlots k p.rhs.length c.stack.slots) c.memory = (.value v, m)) :
    (c.reduce e r k).config.recoveries = c.recoveries := by
  rw [reduce_eq hrule hout]
  exact (recoveries_goto e r _ _ _ _ _).trans (recoveries_reduced ..)

variable (e r)

theorem recoveries_reduce_le (k : Nat) (c : Config V σ) :
    (c.reduce e r k).config.recoveries ≤ c.recoveries + 1 := by
  cases hrule : e.grammar.rules[k]? with
  | none =>
    unfold reduce
    rw [hrule]
    exact Nat.le_succ _
  | some p =>
    rw [reduce_eq hrule rfl]
    split
    · rw [recoveries_goto, recoveries_reduced]
      exact Nat.le_succ _
    · refine (recoveries_recover_le e r _ _).trans ?_
      rw [recoveries_report, recoveries_reduced]
    · exact Nat.le_succ_of_le (recoveries_reduced ..).le

/-- A step goes on after an error once at most. -/
theorem recoveries_step_le {c : Config V σ} {x : Slot V} {rest : List (Slot V)} {row : Row}
    (hslots : c.stack.slots = x :: rest) (hrow : e.row? x.state = some row) :
    (c.step e r).config.recoveries ≤ c.recoveries + 1 := by
  rw [step_eq e r hslots hrow, ← recoveries_consult e r row c]
  split
  · rw [recoveries_shift]
    exact Nat.le_succ _
  · exact recoveries_reduce_le e r _ _
  · unfold accept
    split <;> exact Nat.le_succ _
  · exact recoveries_fail_le e r _ _

variable {e r}

/-- A step that completes a rule with a value does not go on after an error. -/
theorem recoveries_step_of_value {c : Config V σ} {x : Slot V} {rest : List (Slot V)} {row : Row}
    {k : Nat} {p : Rule α} {v : V} {m : σ} (hslots : c.stack.slots = x :: rest)
    (hrow : e.row? x.state = some row) (hdecide : row.decide c.upcoming = some (.reduce k))
    (hrule : e.grammar.rules[k]? = some p)
    (hverdict : r.reduce p.action (.ofSlots k p.rhs.length (x :: rest))
      (c.consult e r row).memory = (.value v, m)) :
    (c.step e r).config.recoveries = c.recoveries := by
  have hout : r.reduce p.action
      (.ofSlots k p.rhs.length (c.consult e r row).stack.slots) (c.consult e r row).memory =
      (.value v, m) := by
    rw [stack_consult, hslots]
    exact hverdict
  rw [step_eq e r hslots hrow, kind_peek, hdecide]
  exact (recoveries_reduce_of_value hrule hout).trans (c.recoveries_consult e r row)

end Config

/-! ## Runs that nothing goes wrong in -/

/-- A slot is taken off the stack, or a completed rule comes to nothing. -/
def Event.isMishap : Event V → Bool
  | .pop _ => true
  | .reduce _ (.rejected _) => true
  | .reduce _ (.fatal _) => true
  | _ => false

namespace Config

/-- The record holds no mishap. -/
def Unharmed (c : Config V σ) : Prop := ∀ ev ∈ c.log, ev.isMishap = false

variable {e : Engine α} {r : Reducer α V σ} {c c' : Config V σ}

theorem Unharmed.event (h : c.Unharmed) (ev : Event V) (hlog : c'.log = c.log.push ev)
    (hev : ev.isMishap = false) : c'.Unharmed := by
  intro ev' hmem
  rw [hlog] at hmem
  rcases Array.mem_push.mp hmem with hmem | rfl
  · exact h ev' hmem
  · exact hev

theorem Unharmed.read (h : c.Unharmed) : (c.read e r).2.Unharmed := by
  unfold Config.read
  split
  · exact h
  · split
    · exact h.event (.pull none) rfl rfl
    · rename_i t rest _
      have hpull : ({ c with input := rest }.record (.pull (some t))).Unharmed :=
        Unharmed.event h _ rfl rfl
      dsimp only
      split
      · exact hpull.event _ rfl rfl
      · exact hpull

theorem Unharmed.consult (h : c.Unharmed) (row : Row) : (c.consult e r row).Unharmed := by
  unfold Config.consult Config.peek
  split
  · split
    · exact h
    · exact h.read
  · exact h

theorem Unharmed.push (h : c.Unharmed) (n : Nat) (v : V) (span : Span) :
    (c.push r n v span).config.Unharmed := by
  unfold Config.push
  split <;> exact h

theorem Unharmed.shift (h : c.Unharmed) (n : Nat) : (c.shift r n).config.Unharmed := by
  unfold Config.shift
  split
  · exact h
  · rename_i t _
    have htaken (v : V) (m : σ) : (c.taken t v m).Unharmed := h.event (.shift t v) rfl rfl
    exact (htaken _ _).push n _ _

theorem Unharmed.goto (h : c.Unharmed) (lhs rule : Nat) (v : V) (span : Span) :
    (c.goto e r lhs rule v span).config.Unharmed := by
  unfold Config.goto
  split
  · exact h
  · split
    · exact h
    · exact h.push _ v span

/-- Unless the run is given up, the machine goes on after an error. -/
theorem post_recover_recoveries (start : Span) (c : Config V σ) :
    (c.recover e r start).Post (fun c' ↦ 0 < c'.recoveries) (fun _ _ ↦ False) fun _ _ ↦ True := by
  unfold recover
  dsimp only
  split
  · trivial
  · split
    · trivial
    · refine post_push r (fun stack _ ↦ ?_) fun _ ↦ trivial
      change 0 < (Config.record _ _).recoveries
      rw [recoveries_record]
      exact Nat.succ_pos _

theorem Recalls.recoveries_le (h : Recalls c c') : c.recoveries ≤ c'.recoveries := by
  unfold recoveries
  rw [← Array.countP_toList, ← Array.countP_toList]
  exact h.sublist.countP_le

/-- The machine has gone on after an error, or nothing has gone wrong. -/
def Unhurt (c : Config V σ) : Prop := 0 < c.recoveries ∨ c.Unharmed

/-- Unless the run is given up, a step goes on after an error, or it does no harm. -/
theorem post_step_unhurt {x : Slot V} {rest : List (Slot V)} {row : Row}
    (hslots : c.stack.slots = x :: rest) (hrow : e.row? x.state = some row) (h : c.Unhurt) :
    (c.step e r).Post Unhurt (fun _ c' ↦ c'.Unhurt) fun _ _ ↦ True := by
  have hunhurt : ∀ {s : Step V σ}, s.config.Unhurt →
      s.Post Unhurt (fun _ c' ↦ c'.Unhurt) fun _ _ ↦ True := fun h ↦
    (Step.post_of_config h).imp (fun _ h ↦ h) (fun _ _ h ↦ h) fun _ _ _ ↦ trivial
  have hrecover : ∀ (start : Span) (c : Config V σ), (c.recover e r start).Post
      Unhurt (fun _ c' ↦ c'.Unhurt) fun _ _ ↦ True :=
    fun start c ↦ (post_recover_recoveries start c).imp (fun _ h ↦ Or.inl h)
      (fun _ _ h ↦ h.elim) fun _ _ _ ↦ trivial
  rcases h with h | h
  · exact hunhurt (Or.inl (h.trans_le (recalls_step _).recoveries_le))
  have hharmless : ∀ {s : Step V σ}, s.config.Unharmed →
      s.Post Unhurt (fun _ c' ↦ c'.Unhurt) fun _ _ ↦ True := fun h ↦ hunhurt (Or.inr h)
  have hconsult := h.consult (e := e) (r := r) row
  rw [step_eq e r hslots hrow]
  split
  · exact hharmless (hconsult.shift _)
  · rename_i k _
    cases hrule : e.grammar.rules[k]? with
    | none =>
      unfold reduce
      rw [hrule]
      trivial
    | some p =>
      obtain ⟨⟨verdict, m⟩, hout⟩ : ∃ out, r.reduce p.action
          (.ofSlots k p.rhs.length (c.consult e r row).stack.slots)
          (c.consult e r row).memory = out := ⟨_, rfl⟩
      rw [reduce_eq hrule hout]
      cases verdict with
      | value v =>
        have hreduced : ((c.consult e r row).reduced k p (.value v, m)).Unharmed :=
          hconsult.event _ rfl rfl
        exact hharmless (hreduced.goto _ _ _ _)
      | rejected message => exact hrecover _ _
      | fatal cause => trivial
  · unfold accept
    split
    · trivial
    · exact Or.inr hconsult
  · unfold fail
    dsimp only
    split
    · split
      · trivial
      · exact hrecover _ _
    · exact hrecover _ _

end Config

namespace Engine

variable (e : Engine α) (r : Reducer α V σ)

@[simp] theorem recoveries_start (input : List Token) (m : σ) :
    (e.start r input m).config.recoveries = 0 := by
  unfold start
  dsimp only
  split
  · rfl
  · exact Config.recoveries_push r _ _ _ _

theorem recoveries_clear (c : Config V σ) : (clear r c).recoveries = c.recoveries := by
  unfold Config.recoveries
  rw [log_clear]

@[simp] theorem recoveries_finish (s : Step V σ) :
    (e.finish r s).2.recoveries = s.config.recoveries := by
  cases s with
  | running c => rfl
  | accepted v c => exact recoveries_clear r c
  | aborted cause c => exact (Config.recoveries_report r _ _).trans (recoveries_clear r c)

theorem unharmed_start (input : List Token) (m : σ) :
    (e.start r input m).config.Unharmed := by
  unfold start
  dsimp only
  split
  · intro ev h
    cases Array.not_mem_empty _ h
  · refine Config.Unharmed.push (fun ev h ↦ ?_) _ _ _
    cases Array.not_mem_empty _ h

variable {e r} in
/-- At every moment of a run that has not been given up, the machine has gone on after an error or
nothing has gone wrong. -/
theorem unhurt_steps (hg : e.tables = e.grammar.tables) (n : Nat) (input : List Token) (m : σ) :
    (e.steps r n (e.start r input m)).Post Config.Unhurt (fun _ c ↦ c.Unhurt) fun _ _ ↦ True := by
  have hstart : (e.start r input m).Post Config.Unhurt (fun _ c ↦ c.Unhurt) fun _ _ ↦ True :=
    (Step.post_of_config (Or.inr (e.unharmed_start r input m))).imp (fun _ h ↦ h)
      (fun _ _ h ↦ h) fun _ _ _ ↦ trivial
  refine Step.Post.imp (e.post_steps r (fun c h ↦ ?_) n ((continues_start input m).and hstart))
    (fun _ h ↦ h.2) (fun _ _ h ↦ h.2) fun _ _ _ ↦ trivial
  obtain ⟨htraced, hunhurt⟩ := h
  obtain ⟨x, rest, hslots⟩ := List.exists_cons_of_ne_nil htraced.ne_nil
  have htrace := htraced
  rw [Config.Traced, hslots] at htrace
  obtain ⟨row, hrow⟩ := htrace.exists_row hg
  exact (Config.continues_step hg htraced).and (Config.post_step_unhurt hslots hrow hunhurt)

end Engine

end PlainLedger
