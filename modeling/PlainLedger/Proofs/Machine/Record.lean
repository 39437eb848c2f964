import PlainLedger.Proofs.Machine.Decision
import PlainLedger.Proofs.Machine.Run

/-!
# The record of a run

What a machine has recorded stays in its record.
-/

namespace PlainLedger

variable {α V σ : Type}

/-- An event that comes of a look at the token ahead. -/
def Event.isLook : Event V → Bool
  | .pull _ => true
  | .report _ => true
  | _ => false

namespace Config

/-- The record of the one configuration is the beginning of the record of the other one. -/
def Recalls (c c' : Config V σ) : Prop := c.log.toList <+: c'.log.toList

variable {e : Engine α} {r : Reducer α V σ} {c c' c'' : Config V σ}

theorem Recalls.refl (c : Config V σ) : Recalls c c := List.prefix_refl _

theorem Recalls.of_eq (h : c'.log = c.log) : Recalls c c' := by
  rw [Recalls, h]

theorem Recalls.trans (h : Recalls c c') (h' : Recalls c' c'') : Recalls c c'' :=
  List.IsPrefix.trans h h'

theorem Recalls.event (ev : Event V) (hlog : c'.log = c.log.push ev) : Recalls c c' := by
  rw [Recalls, hlog, Array.toList_push]
  exact List.prefix_append _ _

theorem Recalls.mem (h : Recalls c c') {ev : Event V} (hev : ev ∈ c.log) : ev ∈ c'.log :=
  Array.mem_def.mpr (h.subset (Array.mem_def.mp hev))

theorem recalls_read (c : Config V σ) : Recalls c (c.read e r).2 := by
  unfold read
  split
  · exact .refl c
  · split
    · exact .event (.pull none) rfl
    · rename_i t rest _
      have hpull : Recalls c ({ c with input := rest }.record (.pull (some t))) :=
        .event (.pull (some t)) rfl
      dsimp only
      split
      · exact hpull.trans (.event (.report _) rfl)
      · exact hpull

theorem recalls_peek (c : Config V σ) : Recalls c (c.peek e r).2 := by
  unfold peek
  split
  · exact .refl c
  · exact c.recalls_read

/-- What a look at the token ahead adds to the record. -/
theorem exists_log_peek (c : Config V σ) :
    ∃ evs, (c.peek e r).2.log.toList = c.log.toList ++ evs ∧ ∀ ev ∈ evs, ev.isLook = true := by
  have hread : ∃ evs, (c.read e r).2.log.toList = c.log.toList ++ evs ∧
      ∀ ev ∈ evs, ev.isLook = true := by
    unfold read
    split
    · exact ⟨[], (List.append_nil _).symm, by simp⟩
    · split
      · exact ⟨[.pull none], Array.toList_push, by simp [Event.isLook]⟩
      · rename_i t rest _
        dsimp only
        split
        · refine ⟨[.pull (some t), .report (diagnostic e .lexical (e.context.lineOf t.span)
            (lexicalMessage t))], ?_, by simp [Event.isLook]⟩
          change ((c.log.push _).push _).toList = _
          rw [Array.toList_push, Array.toList_push, List.append_assoc]
          rfl
        · exact ⟨[.pull (some t)], Array.toList_push, by simp [Event.isLook]⟩
  unfold peek
  split
  · exact ⟨[], (List.append_nil _).symm, by simp⟩
  · exact hread

/-- A look at the token ahead adds nothing of any other kind. -/
theorem filterMap_log_peek {β : Type} {f : Event V → Option β}
    (hf : ∀ ev : Event V, ev.isLook = true → f ev = none) (c : Config V σ) :
    (c.peek e r).2.log.toList.filterMap f = c.log.toList.filterMap f := by
  obtain ⟨evs, heq, hevs⟩ := c.exists_log_peek (e := e) (r := r)
  rw [heq, List.filterMap_append, List.filterMap_eq_nil_iff.mpr fun ev hev ↦ hf ev (hevs ev hev),
    List.append_nil]

theorem recalls_consult (row : Row) (c : Config V σ) : Recalls c (c.consult e r row) := by
  unfold consult
  split
  · exact c.recalls_peek
  · exact .refl c

theorem recalls_push (n : Nat) (v : V) (span : Span) (c : Config V σ) :
    Recalls c (c.push r n v span).config := by
  unfold push
  split <;> exact .refl c

theorem recalls_shift (n : Nat) (c : Config V σ) : Recalls c (c.shift r n).config := by
  unfold shift
  split
  · exact .refl c
  · rename_i t _
    have htaken (v : V) (m : σ) : Recalls c (c.taken t v m) := .event (.shift t v) rfl
    exact (htaken _ _).trans (recalls_push _ _ _ _)

theorem recalls_goto (lhs rule : Nat) (v : V) (span : Span) (c : Config V σ) :
    Recalls c (c.goto e r lhs rule v span).config := by
  unfold goto
  split
  · exact .refl c
  · split
    · exact .refl c
    · exact recalls_push _ v span c

theorem recalls_popped (popped : List (Slot V)) (c : Config V σ) :
    Recalls c (popped.foldl (fun c x ↦ (c.release r x.value).record (.pop x)) c) := by
  induction popped generalizing c with
  | nil => exact .refl c
  | cons x popped ih =>
    have hpop : Recalls c ((c.release r x.value).record (.pop x)) := .event (.pop x) rfl
    exact hpop.trans (ih _)

theorem recalls_recover (start : Span) (c : Config V σ) :
    Recalls c (c.recover e r start).config := by
  have hpopped : Recalls c ((unwind e c.stack.slots).1.foldl
      (fun c x ↦ (c.release r x.value).record (.pop x))
      { c with
        stack := { c.stack with slots := (unwind e c.stack.slots).2 }
        quiet := e.options.recoveryShifts }) := by
    refine Recalls.trans ?_ (recalls_popped (unwind e c.stack.slots).1 _)
    exact .of_eq rfl
  unfold recover
  dsimp only
  split
  · exact hpopped
  · split
    · exact hpopped
    · rename_i state _
      refine hpopped.trans (Recalls.trans (.event (.resume state _) rfl) (recalls_push _ _ _ _))

theorem recalls_reduced (k : Nat) (p : Rule α) (out : Verdict V × σ) (c : Config V σ) :
    Recalls c (c.reduced k p out) := .event (.reduce _ _) rfl

/-- What a completed rule comes to is on record. -/
theorem recalls_of_reduced {k : Nat} {p : Rule α} {out : Verdict V × σ} {c : Config V σ}
    (hrule : e.grammar.rules[k]? = some p)
    (hout : r.reduce p.action (.ofSlots k p.rhs.length c.stack.slots) c.memory = out) :
    Recalls (c.reduced k p out) (c.reduce e r k).config := by
  rw [reduce_eq hrule hout]
  split
  · exact recalls_goto _ _ _ _ _
  · exact Recalls.trans (.event (.report _) rfl) (recalls_recover _ _)
  · exact .refl _

theorem recalls_reduce (k : Nat) (c : Config V σ) : Recalls c (c.reduce e r k).config := by
  cases hrule : e.grammar.rules[k]? with
  | none =>
    unfold reduce
    rw [hrule]
    exact .refl c
  | some p => exact (recalls_reduced k p _ c).trans (recalls_of_reduced hrule rfl)

theorem recalls_complain (n : Nat) (t : Token) (c : Config V σ) :
    Recalls c (c.complain e r n t) := by
  unfold complain
  split
  · exact .event (.report _) rfl
  · exact .refl c

theorem recalls_fail (n : Nat) (c : Config V σ) : Recalls c (c.fail e r n).config := by
  have hcomplain : Recalls c ((c.peek e r).2.complain e r n (c.peek e r).1) :=
    (recalls_peek c).trans (recalls_complain n _ _)
  unfold fail
  dsimp only
  split
  · split
    · exact hcomplain
    · exact hcomplain.trans (Recalls.trans (.event (.discard _) rfl) (recalls_recover _ _))
  · exact hcomplain.trans (recalls_recover _ _)

theorem recalls_carryOut (n : Nat) (a? : Option Action) (c : Config V σ) :
    Recalls c (c.carryOut e r n a?).config := by
  unfold carryOut
  split
  · exact recalls_shift _ _
  · exact recalls_reduce _ _
  · unfold accept
    split <;> exact .refl _
  · exact recalls_fail _ _

theorem recalls_step (c : Config V σ) : Recalls c (c.step e r).config := by
  cases hslots : c.stack.slots with
  | nil =>
    rw [step_of_nil hslots]
    exact .refl c
  | cons x rest =>
    rw [step_of_cons hslots]
    exact (recalls_consult _ c).trans (recalls_carryOut _ _ _)

end Config

end PlainLedger
