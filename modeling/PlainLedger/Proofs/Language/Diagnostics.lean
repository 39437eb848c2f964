import PlainLedger.Proofs.Language.Exchange
import PlainLedger.Proofs.Language.Termination
import PlainLedger.Proofs.Machine.Faults

/-!
# Diagnostics of a parse

A parse returns the diagnostics that it has reported, in the same order. The last of them is fatal
if the text was given up, and no other one is. If the text was read to its end, they hold an error
if and only if something has gone wrong on the way.
-/

namespace PlainLedger

/-- The message of a report. -/
def Event.report? {V : Type} : Event V → Option Diagnostic
  | .report d => some d
  | _ => none

namespace Language

variable {H ε σ ω : Type}

/-! ## What is said while a rule is completed -/

section Speaks

variable {i : Interpretation H ε σ ω} {ctx : Context} {options : Options}

/-- What is kept by all that carrying out a plan can do. -/
structure Session.Kept (i : Interpretation H ε σ ω) (J : Session σ → Prop) : Prop where
  construct : ∀ c s, J s → J { s with state := (i.construct c s.state).2 }
  declare : ∀ d s, J s → J { s with state := (i.declare d s.state).2 }
  release : ∀ h s, J s → J { s with state := i.release h s.state }
  warn : ∀ d s, d.kind = .deprecated → J s → J (s.report i d)

namespace Session.Kept

variable {J : Session σ → Prop} (h : Session.Kept i J)

include h

theorem releaseAll {s : Session σ} (hs : J s) (xs : List H) : J (s.releaseAll i xs) := by
  unfold Session.releaseAll
  induction xs generalizing s with
  | nil => exact hs
  | cons x xs ih => exact ih (h.release x s hs)

theorem perform {s : Session σ} (hs : J s) (origin : Provenance) (plan : Plan H) :
    J (s.perform i origin plan).2 := by
  cases plan with
  | keep v => exact hs
  | warn message v => exact h.warn _ s rfl hs
  | construct c => exact h.construct c s hs
  | declare d => exact h.declare d s hs
  | measure c tolerance? =>
    have hconstruct := h.construct c s hs
    cases hanswer : i.construct c s.state with
    | mk answer state =>
      rw [hanswer] at hconstruct
      cases answer with
      | ok a =>
        rw [perform_measure_ok i hanswer]
        exact hconstruct
      | error reason =>
        rw [perform_measure_error i hanswer]
        exact h.releaseAll hconstruct _

theorem reduce {s : Session σ} (hs : J s) (ctx : Context) (p : Production)
    (red : Reduction (Value H)) : J ((reducer i ctx).reduce p red s).2 := by
  simp only [reducer]
  split
  · exact h.releaseAll hs _
  · exact h.perform (h.releaseAll hs _) _ _

end Session.Kept

/-- The diagnostics of the one session, with some more about forms out of use. -/
def Warns (s s' : Session σ) : Prop :=
  ∃ ds, s'.diagnostics.toList = s.diagnostics.toList ++ ds ∧ ∀ d ∈ ds, d.kind = .deprecated

theorem Warns.refl (s : Session σ) : Warns s s := ⟨[], (List.append_nil _).symm, by simp⟩

theorem kept_warns (s : Session σ) : Session.Kept i (Warns s) where
  construct _ _ h := h
  declare _ _ h := h
  release _ _ h := h
  warn d s' hd := by
    rintro ⟨ds, hds, hkind⟩
    refine ⟨ds ++ [d], ?_, ?_⟩
    · rw [Session.report, Array.toList_push, hds, List.append_assoc]
    · rintro d' hd'
      rcases List.mem_append.mp hd' with hd' | hd'
      · exact hkind d' hd'
      · rwa [List.mem_singleton.mp hd']

/-- An event says what it reports, and a completed rule may warn of a form out of use. -/
theorem Does.diagnostics {slots slots' : List (Slot (Value H))} {s s' : Session σ}
    {ev : Event (Value H)}
    (h : Does (engine ctx options) (reducer i ctx) slots s ev slots' s') :
    ∃ ds, s'.diagnostics.toList = s.diagnostics.toList ++ (ev.report?.toList ++ ds) ∧
      ∀ d ∈ ds, d.kind = .deprecated := by
  have hwarns : ∀ {p red verdict},
      (reducer i ctx).reduce p red s = (verdict, s') → Warns s s' := by
    intro p red verdict hverdict
    have hreduce := (kept_warns (i := i) s).reduce (Warns.refl s) ctx p red
    rwa [hverdict] at hreduce
  cases h with
  | report d hd => exact ⟨[], Array.toList_push, by simp⟩
  | reduce _ _ _ _ hverdict => exact hwarns hverdict
  | reject _ _ _ hverdict => exact hwarns hverdict
  | shift _ hvalue =>
    cases hvalue
    exact ⟨[], (List.append_nil _).symm, by simp⟩
  | _ => exact ⟨[], (List.append_nil _).symm, by simp⟩

end Speaks

/-! ## Runs -/

/-- What is reported are the errors that have been found. -/
structure Voiced (evs : List (Event (Value H))) (s : Session σ) : Prop where
  errors : ∀ d ∈ s.diagnostics.toList, d.isError = true → .report d ∈ evs
  reports : ∀ d, .report d ∈ evs → d ∈ s.diagnostics.toList ∧ d.isError = true
  mild : ∀ d ∈ s.diagnostics.toList, d.kind ≠ .fatal

section Runs

variable {i : Interpretation H ε σ ω} {ctx : Context} {options : Options} {state : σ}
  {evs : List (Event (Value H))} {slots slots' : List (Slot (Value H))} {s s' : Session σ}

theorem mild_of_warns (h : ∀ d ∈ s.diagnostics.toList, d.kind ≠ .fatal) (hs' : Warns s s') :
    ∀ d ∈ s'.diagnostics.toList, d.kind ≠ .fatal := by
  obtain ⟨ds, hds, hkind⟩ := hs'
  rw [hds]
  intro d hd
  rcases List.mem_append.mp hd with hd | hd
  · exact h d hd
  · rw [hkind d hd]
    exact nofun

theorem Voiced.does {ev : Event (Value H)} (h : Voiced evs s)
    (hev : Does (engine ctx options) (reducer i ctx) slots s ev slots' s') :
    Voiced (evs ++ [ev]) s' := by
  have hfault : ∀ d, ev = .report d → d.IsFault := by
    rintro d rfl
    cases hev with
    | report d hd => exact hd
  obtain ⟨ds, hds, hkind⟩ := Does.diagnostics hev
  refine ⟨?_, ?_, ?_⟩
  · intro d hd herror
    rw [hds, List.mem_append, List.mem_append] at hd
    rcases hd with hd | hd | hd
    · exact List.mem_append_left _ (h.errors d hd herror)
    · refine List.mem_append_right _ (List.mem_singleton.mpr ?_)
      cases ev with
      | report d' => exact congrArg Event.report (List.mem_singleton.mp hd)
      | _ => cases hd
    · rw [Diagnostic.isError, hkind d hd] at herror
      cases herror
  · intro d hd
    rw [hds, List.mem_append]
    rcases List.mem_append.mp hd with hd | hd
    · obtain ⟨hmem, herror⟩ := h.reports d hd
      exact ⟨Or.inl hmem, herror⟩
    · have hev := (List.mem_singleton.mp hd).symm
      subst hev
      refine ⟨Or.inr (List.mem_append_left _ (List.mem_singleton.mpr rfl)), ?_⟩
      exact Bool.eq_true_of_not_eq_false fun hfalse ↦
        (hfault d rfl).1 ((Diagnostic.Kind.isError_eq_false_iff _).mp hfalse)
  · intro d hd
    rw [hds, List.mem_append, List.mem_append] at hd
    rcases hd with hd | hd | hd
    · exact h.mild d hd
    · cases ev with
      | report d' =>
        rw [List.mem_singleton.mp hd]
        exact (hfault d' rfl).2
      | _ => cases hd
    · rw [hkind d hd]
      exact nofun

theorem Voiced.of_trace
    (h : Trace (engine ctx options) (reducer i ctx) ⟨state, #[]⟩ evs slots s) : Voiced evs s :=
  h.keeps (P := fun evs _ s ↦ Voiced evs s) ⟨nofun, nofun, nofun⟩ fun _ h hev ↦ h.does hev

/-- As long as a run goes on, nothing fatal has been reported. -/
theorem mild_of_stopped {cause : Abort}
    (h : Stopped (engine ctx options) (reducer i ctx) ⟨state, #[]⟩ cause evs slots s) :
    ∀ d ∈ s.diagnostics.toList, d.kind ≠ .fatal := by
  cases h with
  | start d hm => rcases hm with rfl | rfl <;> exact nofun
  | unrecoverable file line h => exact (Voiced.of_trace h).mild
  | @fatal _ x rest m _ k p _ h _ _ hverdict =>
    have hreduce := (kept_warns (i := i) m).reduce (Warns.refl m) ctx p.action
      (.ofSlots k p.rhs.length (x :: rest))
    rw [hverdict] at hreduce
    exact mild_of_warns (Voiced.of_trace h).mild hreduce
  | overflow d h hev _ => exact ((Voiced.of_trace h).does hev).mild

/-- Nothing is said when the stack is cleared. -/
theorem diagnostics_clear (i : Interpretation H ε σ ω) (ctx : Context)
    (c : Config (Value H) (Session σ)) :
    (Engine.clear (reducer i ctx) c).memory.diagnostics = c.memory.diagnostics := by
  rw [Engine.memory_clear]
  generalize c.stack.slots = slots
  generalize c.memory = s
  induction slots generalizing s with
  | nil => rfl
  | cons x slots ih => exact (ih _).trans rfl

theorem Voiced.hasErrors_iff {c : Config (Value H) (Session σ)} (h : Voiced c.log.toList s) :
    hasErrors s.diagnostics.toList = false ↔ ¬c.Reported := by
  rw [← Bool.not_eq_true, not_iff_not, hasErrors, List.any_eq_true]
  constructor
  · rintro ⟨d, hd, herror⟩
    exact ⟨d, Array.mem_def.mpr (h.errors d hd herror)⟩
  · rintro ⟨d, hd⟩
    exact ⟨d, h.reports d (Array.mem_def.mp hd)⟩

/-- How a parse can come out. If it is complete, it holds errors if and only if something went
wrong in its run. If it has failed, the last diagnostic says so. -/
inductive ComesOut (c : Config (Value H) (Session σ)) : Parsed ω → Prop where
  | complete {whole : ω} {ds : List Diagnostic} (hmild : ∀ d ∈ ds, d.kind ≠ .fatal)
      (herrors : hasErrors ds = false ↔ c.Faultless) : ComesOut c (.complete whole ds)
  | failed {cause : Abort} {ds before : List Diagnostic} {d : Diagnostic} (hds : ds = before ++ [d])
      (hmild : ∀ d ∈ before, d.kind ≠ .fatal) (hfatal : d.kind = .fatal) :
      ComesOut c (.failed cause ds)

theorem faultless_clear {c : Config (Value H) (Session σ)} :
    (Engine.clear (reducer i ctx) c).Faultless ↔ c.Faultless := by
  constructor
  · rintro ⟨hrejected, hresumed, hdiscarded, hshifted⟩
    rw [Config.shifted, Config.pulled, Engine.log_clear] at *
    exact ⟨hrejected, hresumed, hdiscarded, hshifted⟩
  · rintro ⟨hrejected, hresumed, hdiscarded, hshifted⟩
    refine ⟨?_, ?_, ?_, ?_⟩ <;> simpa only [Config.shifted, Config.pulled, Engine.log_clear]

theorem comesOut_conclude {st : Step (Value H) (Session σ)}
    (h : Config.Continues (engine ctx options) (reducer i ctx) ⟨state, #[]⟩ st)
    (hfaultless : st.Post (fun _ ↦ True) (fun _ c ↦ c.Faultless ↔ ¬c.Reported) fun _ _ ↦ True)
    (hend : ((engine ctx options).finish (reducer i ctx) st).1 ≠ .unfinished) :
    ComesOut ((engine ctx options).finish (reducer i ctx) st).2
      (conclude i ctx ((engine ctx options).finish (reducer i ctx) st)).1 := by
  cases st with
  | running c => exact (hend rfl).elim
  | aborted cause c =>
    have hmild := mild_of_stopped h
    rw [← diagnostics_clear i ctx] at hmild
    exact .failed Array.toList_push hmild rfl
  | accepted v c =>
    obtain ⟨x, y, htrace, -⟩ := h
    have hvoiced := Voiced.of_trace htrace
    have hmild := hvoiced.mild
    have herrors := hvoiced.hasErrors_iff.trans hfaultless.symm
    rw [← diagnostics_clear i ctx] at hmild herrors
    by_cases hlist : ∃ hs, v = .list hs
    · obtain ⟨hs, rfl⟩ := hlist
      exact .complete hmild (herrors.trans faultless_clear.symm)
    · have hne : ∀ hs, v ≠ .list hs := fun hs h ↦ hlist ⟨hs, h⟩
      rw [show (engine ctx options).finish (reducer i ctx) (.accepted v c) =
        (.accepted v, Engine.clear (reducer i ctx) c) from rfl, conclude_of_ne_list i ctx hne]
      exact .failed Array.toList_push hmild rfl

end Runs

/-! ## What the interpretation is told -/

/-- The diagnostics that a parse returns. -/
def Parsed.diagnostics : Parsed ω → List Diagnostic
  | complete _ ds => ds
  | failed _ ds => ds
  | unfinished => []

/-- A diagnostic that the interpretation is given. -/
def Exchange.reported? : Exchange H ε → Option Diagnostic
  | report d => some d
  | _ => none

/-- The diagnostics of a session are those that the interpretation has been given. -/
def Told (s : Session (σ × List (Exchange H ε))) : Prop :=
  s.state.2.filterMap Exchange.reported? = s.diagnostics.toList

section Told

variable {i : Interpretation H ε σ ω} {ctx : Context} {options : Options} {state : σ}
  {s : Session (σ × List (Exchange H ε))}

theorem Told.report (h : Told s) (d : Diagnostic) : Told (s.report i.watched d) := by
  unfold Told Session.report
  rw [Array.toList_push, ← h]
  exact List.filterMap_append

/-- Only a report tells the interpretation of a diagnostic. -/
theorem Told.exchange {xs : List (Exchange H ε)} {x : Exchange H ε}
    (h : xs.filterMap Exchange.reported? = s.diagnostics.toList) (hx : x.reported? = none) :
    (xs ++ [x]).filterMap Exchange.reported? = s.diagnostics.toList := by
  rw [List.filterMap_append, List.filterMap_cons_none hx, List.filterMap_nil, List.append_nil, h]

theorem kept_told : Session.Kept i.watched Told where
  construct _ s h := Told.exchange (s := s) h rfl
  declare _ s h := Told.exchange (s := s) h rfl
  release _ _ h := h
  warn d _ _ h := h.report d

theorem Told.releaseAll (h : Told s) (hs : List H) : Told (s.releaseAll i.watched hs) :=
  kept_told.releaseAll h hs

theorem Told.reduce (h : Told s) {p : Production} {red : Reduction (Value H)}
    {verdict : Verdict (Value H)} {s' : Session (σ × List (Exchange H ε))}
    (hverdict : (reducer i.watched ctx).reduce p red s = (verdict, s')) : Told s' := by
  have hreduce := (kept_told (i := i)).reduce h ctx p red
  rwa [hverdict] at hreduce

theorem Told.does {slots slots' : List (Slot (Value H))} {ev : Event (Value H)}
    {s' : Session (σ × List (Exchange H ε))} (h : Told s)
    (hev : Does (engine ctx options) (reducer i.watched ctx) slots s ev slots' s') : Told s' := by
  cases hev with
  | report d _ => exact h.report d
  | reduce _ _ _ _ hverdict => exact h.reduce hverdict
  | reject _ _ _ hverdict => exact h.reduce hverdict
  | pop => exact h.releaseAll _
  | shift _ hvalue =>
    cases hvalue
    exact h
  | _ => exact h

theorem Told.of_trace {evs : List (Event (Value H))} {slots : List (Slot (Value H))}
    (h : Trace (engine ctx options) (reducer i.watched ctx) ⟨(state, []), #[]⟩ evs slots s) :
    Told s :=
  h.keeps (P := fun _ _ s ↦ Told s) rfl fun _ h hev ↦ h.does hev

theorem told_of_stopped {cause : Abort} {evs : List (Event (Value H))}
    {slots : List (Slot (Value H))}
    (h : Stopped (engine ctx options) (reducer i.watched ctx)
      ⟨(state, []), #[]⟩ cause evs slots s) :
    Told s := by
  cases h with
  | start d hm => rcases hm with rfl | rfl <;> rfl
  | unrecoverable file line h => exact .of_trace h
  | fatal h _ _ hverdict => exact (Told.of_trace h).reduce hverdict
  | overflow d h hev _ => exact ((Told.of_trace h).does hev).releaseAll _

theorem Told.clear {c : Config (Value H) (Session (σ × List (Exchange H ε)))} (h : Told c.memory) :
    Told (Engine.clear (reducer i.watched ctx) c).memory :=
  (Engine.noise_clear (reducer i.watched ctx) c).keeps h (fun d _ h ↦ h.report d)
    fun _ _ h ↦ h.releaseAll _

/-- The diagnostics that are returned are those that the interpretation has been given. -/
theorem told_conclude {st : Step (Value H) (Session (σ × List (Exchange H ε)))}
    (h : Config.Continues (engine ctx options) (reducer i.watched ctx) ⟨(state, []), #[]⟩ st)
    (hend : ((engine ctx options).finish (reducer i.watched ctx) st).1 ≠ .unfinished) :
    (conclude i.watched ctx
        ((engine ctx options).finish (reducer i.watched ctx) st)).2.2.filterMap Exchange.reported? =
      (conclude i.watched ctx
        ((engine ctx options).finish (reducer i.watched ctx) st)).1.diagnostics := by
  cases st with
  | running c => exact (hend rfl).elim
  | aborted cause c => exact (told_of_stopped h).clear.report _
  | accepted v c =>
    obtain ⟨x, y, htrace, -⟩ := h
    have htold : Told (Engine.clear (reducer i.watched ctx) c).memory :=
      (Told.of_trace htrace).clear
    by_cases hlist : ∃ hs, v = .list hs
    · obtain ⟨hs, rfl⟩ := hlist
      exact Told.exchange htold rfl
    · have hne : ∀ hs, v ≠ .list hs := fun hs h ↦ hlist ⟨hs, h⟩
      rw [show (engine ctx options).finish (reducer i.watched ctx) (.accepted v c) =
          (.accepted v, Engine.clear (reducer i.watched ctx) c) from rfl,
        conclude_of_ne_list i.watched ctx hne]
      exact (htold.releaseAll _).report _

end Told

/-! ## Parses -/

section Parses

variable (i : Interpretation H ε σ ω) (ctx : Context) (options : Options) (tokens : List Token)
  (state : σ)

theorem told_parse :
    (parse i.watched ctx options tokens (state, [])).2.2.filterMap Exchange.reported? =
      (parse i.watched ctx options tokens (state, [])).1.diagnostics := by
  have hend := run_ne_unfinished i.watched ctx options tokens (state, [])
  unfold parse run Engine.run at *
  generalize stepBudget tokens.length = budget at *
  exact told_conclude (Engine.continues_steps tables_engine budget tokens _) hend

/-- No rule mentions the token that is none. -/
theorem not_edge_lexError {n m : Nat} : ¬grammar.Edge n (.terminal .lexError) m := by
  have hlex : ∀ p ∈ grammar.rules, .terminal .lexError ∉ p.rhs := by decide +kernel
  exact Grammar.not_edge_of_not_mem hlex n m

theorem comesOut_parse :
    ComesOut (run i ctx options tokens state).2 (parse i ctx options tokens state).1 := by
  have hend := run_ne_unfinished i ctx options tokens state
  unfold parse run Engine.run at *
  generalize stepBudget tokens.length = budget at *
  exact comesOut_conclude (Engine.continues_steps tables_engine budget tokens _)
    (Engine.post_faultless tables_engine (fun _ _ ↦ not_edge_end)
      (fun _ _ ↦ not_edge_lexError) tokens _ budget) hend

/-- No failure is silent and no error is invented. The diagnostics of a parse are those that the
interpretation has been given, in the same order. If the parse has failed, the last of them is
fatal, and no other one is. If it is complete, they hold no error exactly if nothing went wrong: no
completed rule was rejected, recovery never went on, and all tokens read before the end were
shifted. -/
theorem reports_faults :
    (parse i.watched ctx options tokens (state, [])).1 = (parse i ctx options tokens state).1 ∧
      (parse i.watched ctx options tokens (state, [])).2.2.filterMap Exchange.reported? =
        (parse i ctx options tokens state).1.diagnostics ∧
      ComesOut (run i ctx options tokens state).2 (parse i ctx options tokens state).1 := by
  have hsame := (parse_watched i ctx options tokens state []).1
  refine ⟨hsame, ?_, comesOut_parse i ctx options tokens state⟩
  rw [told_parse, hsame]

end Parses

end Language

end PlainLedger
