import PlainLedger.Proofs.Machine.Image
import PlainLedger.Proofs.Machine.Record

/-!
# Runs from outside

The outline of a run is what can be seen of it without looking at what tokens carry, at values, and
at the wording of what tokens and reducers say. Two machines that are given tokens of the same kinds
at the same places go on alike, whatever their reducers do, until a completed rule is refused by one
of the reducers and not by the other.
-/

namespace PlainLedger

variable {α V W σ τ : Type}

def Token.outline (t : Token) : Token := { t with payload := .none }

/-- Tokens carry nothing, and refusals have no reasons. -/
def Wording.blank : Wording where
  token := Token.outline
  lexical _ := "invalid token"
  semantic _ := ""
  kind_token _ := rfl
  span_token _ := rfl
  token_endOfInput _ := rfl
  lexicalMessage_token _ := rfl

def Diagnostic.outline (d : Diagnostic) : Diagnostic := Wording.blank.diagnostic d

def Reduction.outline (red : Reduction V) : Reduction Unit := red.map fun _ ↦ ()

def Verdict.outline (verdict : Verdict V) : Verdict Unit := verdict.recast .blank fun _ ↦ ()

def Event.outline (ev : Event V) : Event Unit := ev.recast .blank fun _ ↦ ()

def Outcome.outline (out : Outcome V) : Outcome Unit := out.map fun _ ↦ ()

def Config.outline (c : Config V σ) : Config Unit Unit := c.recast .blank (fun _ ↦ ()) fun _ ↦ ()

def Step.outline (s : Step V σ) : Step Unit Unit := s.recast .blank (fun _ ↦ ()) fun _ ↦ ()

/-- The one record is like the other one, up to a completed rule on which the verdicts differ. -/
def Parted (evs : List (Event V)) (evs' : List (Event W)) : Prop :=
  ∃ before red verdict before' red' verdict',
    before ++ [.reduce red verdict] <+: evs ∧ before' ++ [.reduce red' verdict'] <+: evs' ∧
      before.map Event.outline = before'.map Event.outline ∧ red.outline = red'.outline ∧
      verdict.outline ≠ verdict'.outline

theorem Parted.mono {evs₁ evs₂ : List (Event V)} {evs₁' evs₂' : List (Event W)}
    (h : Parted evs₁ evs₁') (hevs : evs₁ <+: evs₂) (hevs' : evs₁' <+: evs₂') :
    Parted evs₂ evs₂' := by
  obtain ⟨before, red, verdict, before', red', verdict', h, h', hall⟩ := h
  exact ⟨before, red, verdict, before', red', verdict', h.trans hevs, h'.trans hevs', hall⟩

/-! ## Verdicts given in advance -/

namespace Reducer

/-- Gives one verdict on all rules. -/
def answering (verdict : Verdict Unit) : Reducer α Unit Unit where
  blank := ()
  ofToken _ m := ((), m)
  reduce _ _ _ := (verdict, ())
  report _ _ := ()
  release _ _ := ()

/-- The reducer, if it gave this verdict on all rules. -/
def withVerdict (r : Reducer α V σ) (out : Verdict V × σ) : Reducer α V σ :=
  { r with reduce := fun _ _ _ ↦ out }

theorem recasts_answering (r : Reducer α V σ) (out : Verdict V × σ) :
    (r.withVerdict out).Recasts (answering out.1.outline) .blank (fun _ ↦ ()) fun _ ↦ () :=
  ⟨rfl, fun _ _ ↦ rfl, fun _ _ _ ↦ rfl, fun _ _ ↦ rfl, fun _ _ ↦ rfl⟩

end Reducer

namespace Config

variable {e : Engine α} {r : Reducer α V σ} {q : Reducer α W τ} {c : Config V σ} {d : Config W τ}

/-- A step asks for one verdict at most. -/
theorem carryOut_withVerdict {n : Nat} {a? : Option Action} {out : Verdict V × σ}
    (hout : ∀ k p, a? = some (.reduce k) → e.grammar.rules[k]? = some p →
      r.reduce p.action (.ofSlots k p.rhs.length c.stack.slots) c.memory = out) :
    c.carryOut e (r.withVerdict out) n a? = c.carryOut e r n a? := by
  unfold carryOut
  split
  · rfl
  · rename_i k
    cases hrule : e.grammar.rules[k]? with
    | none =>
      unfold reduce
      rw [hrule]
    | some p =>
      rw [reduce_eq (r := r.withVerdict out) hrule rfl, reduce_eq hrule (hout k p rfl hrule)]
      rfl
  · rfl
  · rfl

theorem carryOut_outline {n : Nat} {a? : Option Action} (out : Verdict V × σ)
    (hout : ∀ k p, a? = some (.reduce k) → e.grammar.rules[k]? = some p →
      r.reduce p.action (.ofSlots k p.rhs.length c.stack.slots) c.memory = out) :
    (c.carryOut e r n a?).outline = c.outline.carryOut e (.answering out.1.outline) n a? := by
  rw [← carryOut_withVerdict hout]
  exact (carryOut_recast (r.recasts_answering out) e n a? c).symm

/-- What comes next is seen from outside. -/
theorem peek_outline (e : Engine α) (r : Reducer α V σ) (c : Config V σ) :
    (c.peek e r).1.outline = (c.outline.peek e (.answering (.rejected ""))).1 ∧
      (c.peek e r).2.outline = (c.outline.peek e (.answering (.rejected ""))).2 := by
  have hpeek := peek_recast (r.recasts_answering (.rejected "", c.memory)) e c
  exact ⟨(congrArg Prod.fst hpeek).symm, (congrArg Prod.snd hpeek).symm⟩

theorem consult_outline (row : Row) (h : c.outline = d.outline) :
    (c.consult e r row).outline = (d.consult e q row).outline := by
  unfold consult
  split
  · rw [(peek_outline e r c).2, (peek_outline e q d).2, h]
  · exact h

theorem kind_peek_outline (h : c.outline = d.outline) :
    (c.peek e r).1.kind = (d.peek e q).1.kind := by
  have hc := congrArg Token.kind (peek_outline e r c).1
  have hd := congrArg Token.kind (peek_outline e q d).1
  rw [← h] at hd
  exact hc.trans hd.symm

theorem slots_outline (h : c.outline = d.outline) :
    c.stack.slots.map (Slot.map fun _ ↦ ()) = d.stack.slots.map (Slot.map fun _ ↦ ()) :=
  congrArg (fun c ↦ c.stack.slots) h

theorem log_outline (h : c.outline = d.outline) :
    c.log.toList.map Event.outline = d.log.toList.map Event.outline := by
  have hlog : c.log.map Event.outline = d.log.map Event.outline := congrArg Config.log h
  rw [← Array.toList_map, hlog, Array.toList_map]

theorem reduced_recalled {k : Nat} {p : Rule α} {verdict : Verdict V} {m : σ}
    (hrule : e.grammar.rules[k]? = some p)
    (hout : r.reduce p.action (.ofSlots k p.rhs.length c.stack.slots) c.memory = (verdict, m)) :
    c.log.toList ++ [.reduce (.ofSlots k p.rhs.length c.stack.slots) verdict] <+:
      (c.reduce e r k).config.log.toList := by
  rw [← Array.toList_push]
  exact recalls_of_reduced hrule hout

/-- Two machines carry out the same, unless a completed rule is refused by one of them only. -/
theorem outline_carryOut (h : c.outline = d.outline) (n : Nat) (a? : Option Action) :
    (c.carryOut e r n a?).outline = (d.carryOut e q n a?).outline ∨
      Parted (c.carryOut e r n a?).config.log.toList (d.carryOut e q n a?).config.log.toList := by
  by_cases hrule : ∃ k p, a? = some (.reduce k) ∧ e.grammar.rules[k]? = some p
  · obtain ⟨k, p, rfl, hrule⟩ := hrule
    obtain ⟨⟨verdict, m⟩, hout⟩ : ∃ out, r.reduce p.action
      (.ofSlots k p.rhs.length c.stack.slots) c.memory = out := ⟨_, rfl⟩
    obtain ⟨⟨verdict', m'⟩, hout'⟩ : ∃ out, q.reduce p.action
      (.ofSlots k p.rhs.length d.stack.slots) d.memory = out := ⟨_, rfl⟩
    by_cases hverdict : verdict.outline = verdict'.outline
    · left
      rw [carryOut_outline (verdict, m) (by grind),
        carryOut_outline (verdict', m') (by grind), h, hverdict]
    · right
      refine ⟨_, _, _, _, _, _, reduced_recalled hrule hout, reduced_recalled hrule hout',
        log_outline h, ?_, hverdict⟩
      unfold Reduction.outline
      rw [← Reduction.ofSlots_map, ← Reduction.ofSlots_map, slots_outline h]
  · left
    rw [carryOut_outline (.rejected "", c.memory) (by grind),
      carryOut_outline (.rejected "", d.memory) (by grind), h]
    rfl

theorem outline_step (h : c.outline = d.outline) :
    (c.step e r).outline = (d.step e q).outline ∨
      Parted (c.step e r).config.log.toList (d.step e q).config.log.toList := by
  have hslots := slots_outline h
  cases hc : c.stack.slots with
  | nil =>
    have hd : d.stack.slots = [] := by simpa [hc] using hslots.symm
    rw [step_of_nil hc, step_of_nil hd]
    exact Or.inl (congrArg (Step.aborted (.defect .emptyStack)) h)
  | cons x rest =>
    obtain ⟨y, rest', hd, hxy⟩ : ∃ y rest', d.stack.slots = y :: rest' ∧ y.state = x.state := by
      rw [hc, List.map_cons] at hslots
      obtain ⟨y, rest', hd, hyx, -⟩ := List.map_eq_cons_iff.mp hslots.symm
      exact ⟨y, rest', hd, congrArg Slot.state hyx⟩
    rw [step_of_cons hc, step_of_cons hd, hxy, kind_peek_outline (q := q) h]
    exact outline_carryOut (consult_outline _ h) _ _

end Config

/-! ## Runs -/

namespace Engine

variable (e : Engine α) {r : Reducer α V σ} {q : Reducer α W τ}

theorem recalls_steps (n : Nat) (s : Step V σ) :
    s.config.Recalls (e.steps r n s).config := by
  induction n generalizing s with
  | zero => rw [steps_zero]; exact .refl _
  | succ n ih =>
    cases s with
    | running c => exact (Config.recalls_step c).trans (ih _)
    | accepted v c => rw [steps_accepted]; exact .refl _
    | aborted cause c => rw [steps_aborted]; exact .refl _

theorem recalls_finish (s : Step V σ) : s.config.Recalls (e.finish r s).2 := by
  cases s with
  | running c => exact .refl c
  | accepted v c => exact .of_eq (log_clear c)
  | aborted cause c => exact (Config.Recalls.of_eq (log_clear c)).trans (.event (.report _) rfl)

theorem outline_steps (n : Nat) {s : Step V σ} {s' : Step W τ} (h : s.outline = s'.outline) :
    (e.steps r n s).outline = (e.steps q n s').outline ∨
      Parted (e.steps r n s).config.log.toList (e.steps q n s').config.log.toList := by
  induction n generalizing s s' with
  | zero =>
    rw [steps_zero, steps_zero]
    exact Or.inl h
  | succ n ih =>
    cases s with
    | running c =>
      cases s' with
      | running d =>
        rcases Config.outline_step (e := e) (r := r) (q := q) (Step.running.inj h) with h | h
        · exact ih h
        · exact Or.inr (h.mono (e.recalls_steps n _) (e.recalls_steps n _))
      | accepted v d => cases h
      | aborted cause d => cases h
    | accepted v c =>
      cases s' with
      | accepted v' d =>
        rw [steps_accepted, steps_accepted]
        exact Or.inl h
      | running d => cases h
      | aborted cause d => cases h
    | aborted cause c =>
      cases s' with
      | aborted cause' d =>
        rw [steps_aborted, steps_aborted]
        exact Or.inl h
      | running d => cases h
      | accepted v d => cases h

theorem outline_start {input input' : List Token}
    (h : input.map Token.outline = input'.map Token.outline) (m : σ) (m' : τ) :
    (e.start r input m).outline = (e.start q input' m').outline := by
  have hstart := start_recast (r.recasts_answering (.rejected "", m)) e input m
  have hstart' := start_recast (q.recasts_answering (.rejected "", m')) e input' m'
  rw [show Wording.blank.token = Token.outline from rfl] at hstart hstart'
  rw [h] at hstart
  exact hstart.symm.trans hstart'

theorem outline_finish {s : Step V σ} {s' : Step W τ} (h : s.outline = s'.outline) :
    (e.finish r s).1.outline = (e.finish q s').1.outline ∧
      (e.finish r s).2.outline = (e.finish q s').2.outline := by
  have hfinish := finish_recast (r.recasts_answering (.rejected "", s.config.memory)) e s
  have hfinish' := finish_recast (q.recasts_answering (.rejected "", s'.config.memory)) e s'
  rw [← Step.outline] at hfinish hfinish'
  rw [h] at hfinish
  exact Prod.mk.inj (hfinish.symm.trans hfinish')

/-- The outline of a run depends on the kinds and places of tokens and on the verdicts of the
reducer only. -/
theorem outline_run (budget : Nat) {input input' : List Token}
    (h : input.map Token.outline = input'.map Token.outline) (m : σ) (m' : τ) :
    ((e.run r budget input m).1.outline = (e.run q budget input' m').1.outline ∧
      (e.run r budget input m).2.outline = (e.run q budget input' m').2.outline) ∨
      Parted (e.run r budget input m).2.log.toList (e.run q budget input' m').2.log.toList := by
  rcases e.outline_steps (r := r) (q := q) budget (e.outline_start h m m') with h | h
  · exact Or.inl (e.outline_finish h)
  · exact Or.inr (h.mono (e.recalls_finish _) (e.recalls_finish _))

end Engine

end PlainLedger
