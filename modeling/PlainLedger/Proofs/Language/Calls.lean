import PlainLedger.Proofs.Language.Arithmetic
import PlainLedger.Proofs.Language.Diagnostics
import PlainLedger.Proofs.Language.Entries

/-!
# Calls in the order of a tree

What an interpretation is asked for along a derivation tree. To complete a rule it is called once at
most, with what the calls for the children have come to. So the calls come in the order of the tree,
children before their parents and from left to right.
-/

namespace PlainLedger

namespace Language

variable {H ε σ ω : Type}

theorem txnFlag?_bare (p : Production) (below : List (Slot (Value H))) :
    txnFlag? p (below.map Slot.bare) = txnFlag? p below := by
  unfold txnFlag?
  rw [List.getElem?_map]
  split
  · cases (below[3]? : Option (Slot (Value H))) with
    | none => rfl
    | some x =>
      obtain ⟨state, v, span⟩ := x
      cases v <;> rfl
  · rfl

/-! ## The calls of a plan -/

/-- The calls that carry out the plan for a phrase that begins at `origin`, and the value that it
comes to if nothing is refused. -/
inductive Plan.Carried (origin : Provenance) :
    Plan H → List (Exchange H ε) → Value H → Prop where
  | keep (v : Value H) : Carried origin (.keep v) [] v
  | warn (message : String) (v : Value H) : Carried origin (.warn message v)
      [.report ⟨origin.file, origin.line, .deprecated, message⟩] v
  | construct (c : Construction H) (a : H) :
      Carried origin (.construct c) [.construct c (.ok a)] (.handle a)
  | measure (c : Construction H) (tolerance? : Option H) (a : H) :
      Carried origin (.measure c tolerance?) [.construct c (.ok a)] (.pair a tolerance?)
  | declare (d : Declaration) : Carried origin (.declare d) [.declare d (.ok ())] .nothing

section Watched

variable {i : Interpretation H ε σ ω} {ctx : Context}
  {s s' : Session (σ × List (Exchange H ε))} {v : Value H}

/-- What is written down when a plan is carried out. -/
theorem Plan.exists_carried {plan : Plan H} {origin : Provenance}
    (h : s.perform i.watched origin plan = (.value v, s')) :
    ∃ own, plan.Carried origin own v ∧ s'.record = s.record ++ own := by
  cases plan with
  | keep w =>
    cases h
    exact ⟨[], .keep v, (List.append_nil _).symm⟩
  | warn message w =>
    cases h
    exact ⟨_, .warn message v, rfl⟩
  | construct c =>
    obtain ⟨answer, state, hanswer⟩ : ∃ answer state, i.construct c s.state.1 = (answer, state) :=
      ⟨_, _, rfl⟩
    simp only [Session.perform, Interpretation.watched, hanswer] at h
    cases answer with
    | error reason => cases h
    | ok a =>
      cases h
      exact ⟨_, .construct c a, rfl⟩
  | measure c tolerance? =>
    obtain ⟨answer, state, hanswer⟩ : ∃ answer state, i.construct c s.state.1 = (answer, state) :=
      ⟨_, _, rfl⟩
    simp only [Session.perform, Interpretation.watched, hanswer] at h
    cases answer with
    | error reason => cases h
    | ok a =>
      cases h
      exact ⟨_, .measure c tolerance? a, rfl⟩
  | declare d =>
    obtain ⟨answer, state, hanswer⟩ : ∃ answer state, i.declare d s.state.1 = (answer, state) :=
      ⟨_, _, rfl⟩
    simp only [Session.perform, Interpretation.watched, hanswer] at h
    cases answer with
    | error reason => cases h
    | ok u =>
      cases h
      exact ⟨_, .declare d, rfl⟩

/-- What is written down when a rule is completed. -/
theorem exists_carried {p : Production} {red : Reduction (Value H)}
    (h : (reducer i.watched ctx).reduce p red s = (.value v, s')) :
    ∃ plan args own, (p.plan (ctx.provenance red.span) (txnFlag? p red.below)).run
        { pending := red.values } = .ok (plan, args) ∧
      plan.Carried (ctx.provenance red.span) own v ∧ s'.record = s.record ++ own := by
  dsimp only [reducer] at h
  cases hrun : (p.plan (ctx.provenance red.span) (txnFlag? p red.below)).run
      { pending := red.values } with
  | error misfit =>
    rw [hrun] at h
    cases h
  | ok out =>
    obtain ⟨plan, args⟩ := out
    rw [hrun] at h
    obtain ⟨own, hcarried, hrecord⟩ := Plan.exists_carried h
    rw [record_releaseAll] at hrecord
    exact ⟨plan, args, own, rfl, hcarried, hrecord⟩

/-- The call that a plan comes to nothing at. -/
inductive Plan.Refused : Plan H → List (Exchange H ε) → Prop where
  | construct (c : Construction H) (reason : ε) :
      Refused (.construct c) [.construct c (.error reason)]
  | measure (c : Construction H) (tolerance? : Option H) (reason : ε) :
      Refused (.measure c tolerance?) [.construct c (.error reason)]
  | declare (d : Declaration) (reason : ε) : Refused (.declare d) [.declare d (.error reason)]

theorem Plan.exists_refused {plan : Plan H} {origin : Provenance} {message : String}
    (h : s.perform i.watched origin plan = (.rejected message, s')) :
    ∃ own, plan.Refused own ∧ s'.record = s.record ++ own := by
  cases plan with
  | keep w => cases h
  | warn message w => cases h
  | construct c =>
    obtain ⟨answer, state, hanswer⟩ : ∃ answer state, i.construct c s.state.1 = (answer, state) :=
      ⟨_, _, rfl⟩
    simp only [Session.perform, Interpretation.watched, hanswer] at h
    cases answer with
    | ok a => cases h
    | error reason =>
      cases h
      exact ⟨_, .construct c reason, rfl⟩
  | measure c tolerance? =>
    obtain ⟨answer, state, hanswer⟩ : ∃ answer state, i.construct c s.state.1 = (answer, state) :=
      ⟨_, _, rfl⟩
    simp only [Session.perform, Interpretation.watched, hanswer] at h
    cases answer with
    | ok a => cases h
    | error reason =>
      cases h
      exact ⟨_, .measure c tolerance? reason, record_releaseAll i _ _⟩
  | declare d =>
    obtain ⟨answer, state, hanswer⟩ : ∃ answer state, i.declare d s.state.1 = (answer, state) :=
      ⟨_, _, rfl⟩
    simp only [Session.perform, Interpretation.watched, hanswer] at h
    cases answer with
    | ok u => cases h
    | error reason =>
      cases h
      exact ⟨_, .declare d reason, rfl⟩

/-- What is written down when a completed rule is refused. -/
theorem exists_refused {p : Production} {red : Reduction (Value H)} {message : String}
    (h : (reducer i.watched ctx).reduce p red s = (.rejected message, s')) :
    ∃ plan args own, (p.plan (ctx.provenance red.span) (txnFlag? p red.below)).run
        { pending := red.values } = .ok (plan, args) ∧
      plan.Refused own ∧ s'.record = s.record ++ own := by
  dsimp only [reducer] at h
  cases hrun : (p.plan (ctx.provenance red.span) (txnFlag? p red.below)).run
      { pending := red.values } with
  | error misfit =>
    rw [hrun] at h
    cases h
  | ok out =>
    obtain ⟨plan, args⟩ := out
    rw [hrun] at h
    obtain ⟨own, hrefused, hrecord⟩ := Plan.exists_refused h
    rw [record_releaseAll] at hrecord
    exact ⟨plan, args, own, rfl, hrefused, hrecord⟩

/-- The calls that come with a plan: it is carried out, or it comes to nothing. -/
inductive Plan.Settled (plan : Plan H) (own : List (Exchange H ε)) : Verdict (Value H) → Prop where
  | carried {origin : Provenance} {v : Value H} (h : plan.Carried origin own v) :
      Settled plan own (.value v)
  | refused {message : String} (h : plan.Refused own) : Settled plan own (.rejected message)

/-- What comes of a completed rule that is not given up at. -/
theorem exists_settled {p : Production} {red : Reduction (Value H)} {verdict : Verdict (Value H)}
    (h : (reducer i.watched ctx).reduce p red s = (verdict, s'))
    (hfatal : ∀ cause, verdict ≠ .fatal cause) :
    ∃ plan args own, (p.plan (ctx.provenance red.span) (txnFlag? p red.below)).run
        { pending := red.values } = .ok (plan, args) ∧
      plan.Settled own verdict ∧ s'.record = s.record ++ own := by
  cases verdict with
  | value v =>
    obtain ⟨plan, args, own, hrun, hcarried, hrecord⟩ := exists_carried h
    exact ⟨plan, args, own, hrun, .carried hcarried, hrecord⟩
  | rejected message =>
    obtain ⟨plan, args, own, hrun, hrefused, hrecord⟩ := exists_refused h
    exact ⟨plan, args, own, hrun, .refused hrefused, hrecord⟩
  | fatal cause => exact (hfatal cause rfl).elim

end Watched

/-! ## What has been written down -/

section Record

variable {i : Interpretation H ε σ ω} {ctx : Context} {options : Options}
  {xs : List (Exchange H ε)}

theorem prefix_reduce (p : Production) (red : Reduction (Value H))
    {s : Session (σ × List (Exchange H ε))} (h : xs <+: s.record) :
    xs <+: ((reducer i.watched ctx).reduce p red s).2.record := by
  have hreport : ∀ (x : Exchange H ε) {ys}, xs <+: ys → xs <+: ys ++ [x] :=
    fun x _ h ↦ h.trans (List.prefix_append _ _)
  refine (⟨?_, ?_, ?_, ?_⟩ : Session.Kept i.watched fun s ↦ xs <+: s.record).reduce h ctx p red
  · exact fun c s h ↦ hreport _ h
  · exact fun d s h ↦ hreport _ h
  · exact fun a s h ↦ h
  · exact fun d s _ h ↦ hreport _ h

/-- What has been written down stays. -/
theorem prefix_steps {c : Config (Value H) (Session (σ × List (Exchange H ε)))}
    {s : Session (σ × List (Exchange H ε))}
    (htraced : c.Traced (engine ctx options) (reducer i.watched ctx) s)
    (h : xs <+: c.memory.record) (n : Nat) :
    ((engine ctx options).steps (reducer i.watched ctx) n (.running c)).Post
      (fun c ↦ xs <+: c.memory.record) (fun _ c ↦ xs <+: c.memory.record)
      (fun _ c ↦ xs <+: c.memory.record) := by
  have hsteps := Engine.post_steps (engine ctx options) (reducer i.watched ctx)
    (P := fun c ↦ c.Traced (engine ctx options) (reducer i.watched ctx) s ∧ xs <+: c.memory.record)
    (A := fun _ c ↦ xs <+: c.memory.record) (B := fun _ c ↦ xs <+: c.memory.record) ?_ n
    (s := .running c) ⟨htraced, h⟩
  · exact hsteps.imp (fun _ h ↦ h.2) (fun _ _ h ↦ h) fun _ _ h ↦ h
  · rintro c ⟨htraced, h⟩
    obtain ⟨ys, hys⟩ := htraced.spelled
    have htouches := (Config.moves_step (r := reducer i.watched ctx) tables_engine
      (fun _ _ ↦ not_edge_end) hys.path).touches
    have hrecord := htouches.keeps (J := fun s ↦ xs <+: s.record) h
      (fun d s h ↦ h.trans (List.prefix_append _ _))
      (fun v s h ↦ (record_releaseAll i v.handles s).symm ▸ h) (fun _ _ h ↦ h)
      fun p red s h ↦ prefix_reduce p red h
    exact (Config.continues_step tables_engine htraced).and (Step.post_of_config hrecord) |>.imp
      (fun _ h ↦ h) (fun _ _ h ↦ h.2) fun _ _ h ↦ h.2

end Record

/-! ## The calls of a forest -/

/-- The calls along a forest. The values of its trees are put above those that stand before them. -/
inductive Calls (ctx : Context) : {xs : List Symbol} → Forest grammar xs →
    List (Slot (Value H)) → List (Exchange H ε) → List (Slot (Value H)) → Prop where
  | nil (slots : List (Slot (Value H))) : Calls ctx .nil slots [] slots
  | leaf {xs : List Symbol} {rest : Forest grammar xs} {slots slots' : List (Slot (Value H))}
      {calls : List (Exchange H ε)} (t : Token)
      (hrest : Calls ctx rest (⟨0, Value.ofToken t, t.span⟩ :: slots) calls slots') :
      Calls ctx (.leaf (.token t) rest) slots calls slots'
  | node {xs : List Symbol} {k : Nat} {p : Rule Production} {h : grammar.rules[k]? = some p}
      {children : Forest grammar p.rhs} {rest : Forest grammar xs}
      {slots slots₁ slots' : List (Slot (Value H))} {calls₁ own calls₂ : List (Exchange H ε)}
      {red : Reduction (Value H)} {plan : Plan H} {v : Value H}
      (hchildren : Calls ctx children slots calls₁ slots₁)
      (hred : .ofSlots k p.rhs.length slots₁ = red)
      (hplan : ∃ args, (p.action.plan (ctx.provenance red.span) (txnFlag? p.action red.below)).run
        { pending := red.values } = .ok (plan, args))
      (hcarried : plan.Carried (ctx.provenance red.span) own v)
      (hrest : Calls ctx rest (⟨0, v, red.span⟩ :: slots) calls₂ slots') :
      Calls ctx (.node k h children rest) slots (calls₁ ++ own ++ calls₂) slots'

/-- What is written down along a forest. -/
theorem Calls.of_walks {i : Interpretation H ε σ ω} {ctx : Context} {xs : List Symbol}
    {f : Forest grammar xs} {slots slots' : List (Slot (Value H))}
    {s s' : Session (σ × List (Exchange H ε))} {evs : List (Event (Value H))}
    (h : Walks (reducer i.watched ctx) f slots s evs slots' s') :
    ∃ calls, Calls ctx f (slots.map Slot.bare) calls (slots'.map Slot.bare) ∧
      s'.record = s.record ++ calls := by
  induction h with
  | nil slots s => exact ⟨[], .nil _, (List.append_nil _).symm⟩
  | leaf t n hvalue _ ih =>
    cases hvalue
    obtain ⟨calls, hcalls, hrecord⟩ := ih
    exact ⟨calls, .leaf t hcalls, hrecord⟩
  | @node xs k p hrule children rest slots slots₁ slots' s s₁ s₂ s' evs evs' v n _ hverdict _ ihc
      ihr =>
    obtain ⟨calls₁, hcalls₁, hrecord₁⟩ := ihc
    obtain ⟨calls₂, hcalls₂, hrecord₂⟩ := ihr
    obtain ⟨plan, args, own, hplan, hcarried, hrecord⟩ := exists_carried hverdict
    refine ⟨calls₁ ++ own ++ calls₂, ?_, ?_⟩
    · refine .node hcalls₁ (Reduction.ofSlots_bare ..) ⟨args, ?_⟩ hcarried hcalls₂
      rw [txnFlag?_bare]
      exact hplan
    · rw [hrecord₂, hrecord, hrecord₁, List.append_assoc, List.append_assoc, List.append_assoc]

namespace Calls

variable {ctx : Context} {xs ys : List Symbol} {f : Forest grammar xs}
  {slots slots' : List (Slot (Value H))} {calls : List (Exchange H ε)}

/-- What the calls along a forest come to, by its first tree. -/
def Begun (ctx : Context) (slots : List (Slot (Value H))) (calls : List (Exchange H ε))
    (slots' : List (Slot (Value H))) : {xs : List Symbol} → Forest grammar xs → Prop
  | _, .nil => calls = [] ∧ slots' = slots
  | _, .leaf (.token t) rest => Calls ctx rest (⟨0, Value.ofToken t, t.span⟩ :: slots) calls slots'
  | _, .leaf (.skipped _) _ => False
  | _, .node (p := p) k _ children rest => ∃ calls₁ own calls₂ slots₁ red plan args v,
      calls = calls₁ ++ own ++ calls₂ ∧ Calls ctx children slots calls₁ slots₁ ∧
      Reduction.ofSlots k p.rhs.length slots₁ = red ∧
      (p.action.plan (ctx.provenance red.span) (txnFlag? p.action red.below)).run
        { pending := red.values } = .ok (plan, args) ∧
      plan.Carried (ctx.provenance red.span) own v ∧
      Calls ctx rest (⟨0, v, red.span⟩ :: slots) calls₂ slots'

theorem begun (h : Calls ctx f slots calls slots') : Begun ctx slots calls slots' f := by
  cases h with
  | nil => exact ⟨rfl, rfl⟩
  | leaf t hrest => exact hrest
  | node hchildren hred hplan hcarried hrest =>
    obtain ⟨args, hplan⟩ := hplan
    exact ⟨_, _, _, _, _, _, args, _, rfl, hchildren, hred, hplan, hcarried, hrest⟩

/-- The calls for one forest come before those for the next. -/
theorem exists_of_append {f' : Forest grammar ys} (h : Calls ctx (f.append f') slots calls slots') :
    ∃ calls₁ slots₁ calls₂, calls = calls₁ ++ calls₂ ∧ Calls ctx f slots calls₁ slots₁ ∧
      Calls ctx f' slots₁ calls₂ slots' := by
  induction f generalizing slots calls with
  | nil => exact ⟨[], slots, calls, rfl, .nil slots, h⟩
  | leaf x rest ih =>
    cases x with
    | skipped span => exact h.begun.elim
    | token t =>
      obtain ⟨calls₁, slots₁, calls₂, rfl, h₁, h₂⟩ := ih h.begun
      exact ⟨calls₁, slots₁, calls₂, rfl, .leaf t h₁, h₂⟩
  | node k hrule children rest _ ih =>
    obtain ⟨calls₀, own, calls', slots₀, red, plan, args, v, rfl, hchildren, hred, hplan, hcarried,
      hrest⟩ := h.begun
    obtain ⟨calls₁, slots₁, calls₂, rfl, h₁, h₂⟩ := ih hrest
    refine ⟨calls₀ ++ own ++ calls₁, slots₁, calls₂, (List.append_assoc ..).symm, ?_, h₂⟩
    exact .node hchildren hred ⟨args, hplan⟩ hcarried h₁

theorem of_read {u : Terminal} {t : Token} {rest : Forest grammar xs} {ht : t.kind = u}
    (h : Calls ctx (.read t ht rest) slots calls slots') :
    Calls ctx rest (⟨0, Value.ofToken t, t.span⟩ :: slots) calls slots' := by
  subst ht
  exact h.begun

theorem of_nil (h : Calls ctx (.nil : Forest grammar []) slots calls slots') :
    calls = [] ∧ slots' = slots :=
  h.begun

/-- The calls for one tree. -/
theorem of_node {k : Nat} {p : Rule Production} {hrule : grammar.rules[k]? = some p}
    {children : Forest grammar p.rhs}
    (h : Calls ctx (.node k hrule children .nil) slots calls slots') :
    ∃ calls₁ own slots₁ plan args v span, calls = calls₁ ++ own ∧ slots' = ⟨0, v, span⟩ :: slots ∧
      Calls ctx children slots calls₁ slots₁ ∧
      (p.action.plan (ctx.provenance span)
          (txnFlag? p.action (Reduction.ofSlots k p.rhs.length slots₁).below)).run
        { pending := (Reduction.ofSlots k p.rhs.length slots₁).values } = .ok (plan, args) ∧
      plan.Carried (ctx.provenance span) own v := by
  obtain ⟨calls₁, own, calls₂, slots₁, _, plan, args, v, rfl, hchildren, rfl, hplan, hcarried,
    hrest⟩ := h.begun
  obtain ⟨rfl, rfl⟩ := hrest.of_nil
  exact ⟨calls₁, own, slots₁, plan, args, v, _, List.append_nil _, rfl, hchildren, hplan, hcarried⟩

end Calls

end Language

end PlainLedger
