import PlainLedger.Proofs.Language.Diagnostics
import PlainLedger.Proofs.Language.Entries
import PlainLedger.Proofs.Language.Soundness
import PlainLedger.Proofs.Language.SourceOrder
import PlainLedger.Proofs.Machine.Outline

/-!
# Parses from outside

Which requests a parse makes, and what it warns of, is told by the rules that it completes; where a
rule asks for nothing, nothing can be refused. So two parses of tokens of the same kinds at the same
places go the same way, as long as the one interpretation grants what the other one grants.
-/

namespace PlainLedger

variable {V W : Type}

def Verdict.isValue : Verdict V → Bool
  | value _ => true
  | _ => false

@[simp] theorem Verdict.isValue_rejected (message : String) :
    (rejected message : Verdict V).isValue = false := rfl

theorem Verdict.isValue_outline (verdict : Verdict V) :
    verdict.outline.isValue = verdict.isValue := by
  cases verdict <;> rfl

theorem Diagnostic.outline_outline (d : Diagnostic) : d.outline.outline = d.outline := by
  obtain ⟨file, line, kind, message⟩ := d
  cases kind <;> rfl

theorem Event.outline_map (g : V → W) (ev : Event V) : (ev.map g).outline = ev.outline := by
  have hslot : Slot.map (fun _ : W ↦ ()) ∘ Slot.map g = Slot.map fun _ ↦ () := rfl
  cases ev with
  | reduce red verdict =>
    have hred : (red.map g).outline = red.outline := by
      unfold Reduction.outline Reduction.map
      simp only [List.map_map, hslot]
    have hverdict : (verdict.map g).outline = verdict.outline := by cases verdict <;> rfl
    exact congrArg₂ Event.reduce hred hverdict
  | _ => rfl

namespace Language

variable {H K ε φ σ τ ω ψ : Type}

/-! ## Calls -/

/-- A call of an interpretation from outside. Of a request it is seen what it asks for and whether
it was granted, and also the place, for the requests that come with it. -/
inductive Call where
  | asked (name : String) (origin? : Option Provenance) (granted : Bool)
  | reported (d : Diagnostic)
  | finished
  deriving DecidableEq, Repr

namespace Call

def granted? : Call → Option Bool
  | asked _ _ granted => some granted
  | _ => none

def reported? : Call → Option Diagnostic
  | reported d => some d
  | _ => none

end Call

def Exchange.outline : Exchange H ε → Call
  | construct c answer => .asked c.name c.origin? answer.isOk
  | declare d answer => .asked d.name d.origin? answer.isOk
  | report d => .reported d.outline
  | finish _ => .finished

/-- The answers to requests, first to last. -/
def grants (calls : List Call) : List Bool := calls.filterMap Call.granted?

def Parsed.outline : Parsed ω → Parsed Unit
  | complete _ ds => .complete () (ds.map Diagnostic.outline)
  | failed cause ds => .failed cause (ds.map Diagnostic.outline)
  | unfinished => .unfinished

theorem filterMap_reported?_outline (xs : List (Exchange H ε)) :
    (xs.map Exchange.outline).filterMap Call.reported? =
      (xs.filterMap Exchange.reported?).map Diagnostic.outline := by
  rw [List.filterMap_map, List.map_filterMap]
  congr 1
  funext x
  cases x <;> rfl

/-! ## What a production calls for -/

def Plan.request? : Plan H → Option (String × Option Provenance)
  | construct c => some (c.name, c.origin?)
  | measure c _ => some (c.name, c.origin?)
  | declare d => some (d.name, d.origin?)
  | _ => none

def Plan.warning? : Plan H → Option String
  | warn message _ => some message
  | _ => none

/-- The request that a production makes for a phrase that begins at `origin`. -/
def Production.request? (origin : Provenance) : Production → Option (String × Option Provenance)
  | .number => some ("number", none)
  | .add => some ("add", none)
  | .subtract => some ("subtract", none)
  | .multiply => some ("multiply", none)
  | .divide => some ("divide", none)
  | .negate => some ("negate", none)
  | .amount | .amountExact | .amountWithTolerance => some ("amount", none)
  | .compoundPerUnit | .compoundWithTotal => some ("compound_amount", none)
  | .lotSpec => some ("lot_spec", none)
  | .position | .positionWithLot => some ("position", some origin)
  | .keyValue => some ("key_value", none)
  | .postingBare | .postingUnits | .postingPerUnitPrice | .postingTotalPrice =>
    some ("posting", some origin)
  | .transaction => some ("transaction", some origin)
  | .openEntry => some ("open", some origin)
  | .closeEntry => some ("close", some origin)
  | .commodity => some ("commodity", some origin)
  | .pad => some ("pad", some origin)
  | .balance => some ("balance", some origin)
  | .price => some ("price", some origin)
  | .event => some ("event", some origin)
  | .note => some ("note", some origin)
  | .document => some ("document", some origin)
  | .optionSetting => some ("option", some origin)
  | .includeFile => some ("include", some origin)
  | .plugin | .pluginWithConfig => some ("plugin", some origin)
  | .pushTag => some ("pushtag", none)
  | .popTag => some ("poptag", none)
  | _ => none

def Production.warning? : Production → Option String
  | .fieldPipe => some pipeWarning
  | .lotListSlash => some slashWarning
  | _ => none

/-- The plan is one of the production, as far as it is seen from outside. -/
structure Plan.Shows (p : Production) (origin : Provenance) (plan : Plan H) : Prop where
  request : plan.request? = p.request? origin
  warning : plan.warning? = p.warning?

namespace Take

/-- What is known of the first result may be used for the second one. -/
theorem returns_bind_of {β γ : Type} {P : β → Prop} {Q : γ → Prop} {m : Take H β}
    {f : β → Take H γ} (hm : Returns P m) (h : ∀ b, P b → Returns Q (f b)) :
    Returns Q (m >>= f) := by
  intro a c a' hrun
  rw [StateT.run_bind] at hrun
  cases hout : m.run a with
  | error misfit =>
    rw [hout] at hrun
    cases hrun
  | ok out =>
    rw [hout] at hrun
    exact h out.1 (hm a out.1 out.2 hout) out.2 c a' hrun

theorem returns_dated_shows {p : Production} {origin : Provenance} {name : String}
    {body : Take H (Statement H)} (hbody : Returns (fun b ↦ b.name = name) body)
    (hrequest : p.request? origin = some (name, some origin)) (hwarning : p.warning? = none) :
    Returns (Plan.Shows p origin) (dated origin body) := by
  refine returns_bind fun _ ↦ returns_bind fun _ ↦ returns_bind_of hbody fun b hb ↦ ?_
  refine returns_bind fun _ ↦ returns_bind fun _ ↦ returns_pure ⟨?_, hwarning.symm⟩
  rw [hrequest, ← hb]
  rfl

end Take

open Take

/-- Whatever values it is given, a production makes one and the same request. -/
theorem returns_shows (p : Production) (origin : Provenance) (txnFlag? : Option Char) :
    Returns (H := H) (Plan.Shows p origin) (p.plan origin txnFlag?) := by
  cases p
  case postingBare | postingUnits | postingPerUnitPrice | postingTotalPrice =>
    cases txnFlag? with
    | none => exact returns_throw
    | some flag =>
      exact returns_bind fun _ ↦ returns_bind fun _ ↦ returns_bind fun _ ↦ returns_bind fun _ ↦
        returns_pure ⟨rfl, rfl⟩
  case openEntry | closeEntry | commodity | pad | balance | price | event | note | document =>
    refine returns_dated_shows ?_ rfl rfl
    repeat' first
      | exact returns_pure rfl
      | refine returns_bind fun _ ↦ ?_
  all_goals
    repeat' first
      | exact returns_pure ⟨rfl, rfl⟩
      | refine returns_bind fun _ ↦ ?_

/-- The calls that come with carrying out a plan of the production. -/
def Production.calls (origin : Provenance) (granted : Bool) (p : Production) : List Call :=
  (p.warning?.map fun message ↦
    Call.reported ⟨origin.file, origin.line, .deprecated, message⟩).toList ++
    ((p.request? origin).map fun request ↦ Call.asked request.1 request.2 granted).toList

/-- The calls that come with an event. -/
def callsAt (ctx : Context) : Event V → List Call
  | .reduce red verdict =>
    match grammar.rules[red.rule]? with
    | some p => p.action.calls (ctx.provenance red.span) verdict.isValue
    | none => []
  | .report d => [.reported d.outline]
  | _ => []

theorem callsAt_outline (ctx : Context) (ev : Event V) :
    callsAt ctx ev.outline = callsAt ctx ev := by
  cases ev with
  | report d => exact congrArg (fun d ↦ [Call.reported d]) d.outline_outline
  | reduce red verdict =>
    change (match grammar.rules[red.rule]? with
      | some p => p.action.calls (ctx.provenance red.span) verdict.outline.isValue
      | none => []) = _
    rw [verdict.isValue_outline]
    rfl
  | _ => rfl

/-- Records that look the same come with the same calls. -/
theorem calls_of_outline (ctx : Context) {evs : List (Event V)} {evs' : List (Event W)}
    (h : evs.map Event.outline = evs'.map Event.outline) :
    evs.flatMap (callsAt ctx) = evs'.flatMap (callsAt ctx) := by
  have hcalls := congrArg (List.flatMap (callsAt ctx)) h
  rw [List.flatMap_map, List.flatMap_map] at hcalls
  simpa only [callsAt_outline] using hcalls

/-- A rule is refused only where it asks for something. -/
def Settled (ctx : Context) (red : Reduction V) (verdict : Verdict V) : Prop :=
  ∃ p, grammar.rules[red.rule]? = some p ∧ (verdict.isValue = true ∨
    (∃ message, verdict = .rejected message) ∧
      (p.action.request? (ctx.provenance red.span)).isSome = true)

section Reduce

variable {i : Interpretation H ε σ ω} {ctx : Context} {options : Options} {state : σ}
  {s s' : Session (σ × List (Exchange H ε))} {verdict : Verdict (Value H)} {p : Production}

/-- Carrying out a plan makes the calls of the production. -/
theorem outline_perform {origin : Provenance} {plan : Plan H} (hplan : plan.Shows p origin)
    (hs' : s.perform i.watched origin plan = (verdict, s')) :
    s'.record.map Exchange.outline =
        s.record.map Exchange.outline ++ p.calls origin verdict.isValue ∧
      (verdict.isValue = true ∨
        (∃ message, verdict = .rejected message) ∧ (p.request? origin).isSome = true) := by
  unfold Production.calls
  rw [← hplan.request, ← hplan.warning]
  cases plan with
  | keep v =>
    cases hs'
    exact ⟨(List.append_nil _).symm, Or.inl rfl⟩
  | warn message v =>
    cases hs'
    exact ⟨List.map_append, Or.inl rfl⟩
  | construct c =>
    cases hs'
    refine ⟨?_, ?_⟩
    · refine List.map_append.trans (congrArg _ ?_)
      change [Call.asked c.name c.origin? (i.construct c s.state.1).1.isOk] = _
      cases (i.construct c s.state.1).1 <;> rfl
    · cases (i.construct c s.state.1).1 with
      | ok a => exact Or.inl rfl
      | error reason => exact Or.inr ⟨⟨_, rfl⟩, rfl⟩
  | measure c tolerance? =>
    cases hanswer : i.construct c s.state.1 with
    | mk answer state =>
      have hwatched : i.watched.construct c s.state =
          (answer, (state, s.state.2 ++ [.construct c answer])) := by
        simp [Interpretation.watched, hanswer]
      cases answer with
      | ok a =>
        rw [perform_measure_ok i.watched hwatched] at hs'
        cases hs'
        exact ⟨List.map_append, Or.inl rfl⟩
      | error reason =>
        rw [perform_measure_error i.watched hwatched] at hs'
        cases hs'
        refine ⟨?_, Or.inr ⟨⟨_, rfl⟩, rfl⟩⟩
        rw [record_releaseAll]
        exact List.map_append
  | declare d =>
    cases hs'
    refine ⟨?_, ?_⟩
    · refine List.map_append.trans (congrArg _ ?_)
      change [Call.asked d.name d.origin? (i.declare d s.state.1).1.isOk] = _
      cases (i.declare d s.state.1).1 <;> rfl
    · cases (i.declare d s.state.1).1 with
      | ok a => exact Or.inl rfl
      | error reason => exact Or.inr ⟨⟨_, rfl⟩, rfl⟩

/-- Completing a rule makes the calls of its production, unless its values do not fit. -/
theorem outline_reduce {red : Reduction (Value H)}
    (hverdict : (reducer i.watched ctx).reduce p red s = (verdict, s'))
    (hfatal : ∀ cause, verdict ≠ .fatal cause) :
    s'.record.map Exchange.outline = s.record.map Exchange.outline ++
        p.calls (ctx.provenance red.span) verdict.isValue ∧
      (verdict.isValue = true ∨ (∃ message, verdict = .rejected message) ∧
        (p.request? (ctx.provenance red.span)).isSome = true) := by
  simp only [reducer] at hverdict
  split at hverdict
  · cases hverdict
    exact (hfatal _ rfl).elim
  · rename_i plan args hrun
    have hperform := outline_perform (returns_shows _ _ _ _ _ _ hrun) hverdict
    rwa [record_releaseAll] at hperform

end Reduce

/-! ## Runs -/

section Runs

variable {i : Interpretation H ε σ ω} {ctx : Context} {options : Options} {state : σ}
  {s s' : Session (σ × List (Exchange H ε))} {evs : List (Event (Value H))}
  {slots slots' : List (Slot (Value H))}

/-- The events tell which calls were made. -/
structure Tells (ctx : Context) (evs : List (Event (Value H)))
    (s : Session (σ × List (Exchange H ε))) : Prop where
  calls : s.record.map Exchange.outline = evs.flatMap (callsAt ctx)
  settled : ∀ red verdict, .reduce red verdict ∈ evs → Settled ctx red verdict

theorem Tells.snoc (h : Tells ctx evs s) {ev : Event (Value H)}
    (hcalls : s'.record.map Exchange.outline = s.record.map Exchange.outline ++ callsAt ctx ev)
    (hsettled : ∀ red verdict, ev = .reduce red verdict → Settled ctx red verdict) :
    Tells ctx (evs ++ [ev]) s' := by
  refine ⟨?_, fun red verdict hmem ↦ ?_⟩
  · rw [hcalls, h.calls, List.flatMap_append, List.flatMap_singleton]
  · rcases List.mem_append.mp hmem with hmem | hmem
    · exact h.settled red verdict hmem
    · exact hsettled red verdict (List.mem_singleton.mp hmem).symm

theorem Tells.report (h : Tells ctx evs s) (d : Diagnostic) :
    Tells ctx (evs ++ [.report d]) (s.report i.watched d) :=
  h.snoc List.map_append fun _ _ hev ↦ by cases hev

theorem Tells.of_record (h : Tells ctx evs s) (hrecord : s'.record = s.record) : Tells ctx evs s' :=
  ⟨(congrArg _ hrecord).trans h.calls, h.settled⟩

theorem Tells.complete {k : Nat} {p : Rule Production} {red : Reduction (Value H)}
    {verdict : Verdict (Value H)} (h : Tells ctx evs s) (hrule : grammar.rules[k]? = some p)
    (hred : red.rule = k)
    (hverdict : (reducer i.watched ctx).reduce p.action red s = (verdict, s'))
    (hfatal : ∀ cause, verdict ≠ .fatal cause) : Tells ctx (evs ++ [.reduce red verdict]) s' := by
  subst hred
  obtain ⟨hcalls, hsettled⟩ := outline_reduce hverdict hfatal
  refine h.snoc ?_ ?_
  · simp only [hcalls, callsAt, hrule]
  · rintro _ _ ⟨⟩
    exact ⟨p, hrule, hsettled⟩

theorem Tells.does {ev : Event (Value H)} (h : Tells ctx evs s)
    (hev : Does (engine ctx options) (reducer i.watched ctx) slots s ev slots' s') :
    Tells ctx (evs ++ [ev]) s' := by
  cases hev with
  | report d _ => exact h.report d
  | reduce hrule _ _ _ hverdict => exact h.complete hrule rfl hverdict fun _ hv ↦ by cases hv
  | reject hrule _ _ hverdict => exact h.complete hrule rfl hverdict fun _ hv ↦ by cases hv
  | @pop x =>
    have hrecord := record_releaseAll i x.value.handles s
    refine (h.of_record hrecord).snoc (List.append_nil _).symm fun _ _ hev ↦ by cases hev
  | shift _ hvalue =>
    cases hvalue
    exact h.snoc (List.append_nil _).symm fun _ _ hev ↦ by cases hev
  | _ => exact h.snoc (List.append_nil _).symm fun _ _ hev ↦ by cases hev

theorem tells_of_trace
    (h : Trace (engine ctx options) (reducer i.watched ctx) ⟨(state, []), #[]⟩ evs slots s) :
    Tells ctx evs s :=
  h.keeps (P := fun evs _ s ↦ Tells ctx evs s) ⟨rfl, fun _ _ hmem ↦ by cases hmem⟩
    fun _ h hev ↦ h.does hev

/-- Tokens that carry what their kinds ask for give values of the right forms. -/
theorem typed_of_trace {i : Interpretation H ε σ ω} {s₀ s : Session σ}
    (h : Trace (engine ctx options) (reducer i ctx) s₀ evs slots s)
    (hsound : ∀ t v, .shift t v ∈ evs → t.Sound) : ∃ xs, Spelled grammar Typed slots xs := by
  refine h.keeps (P := fun evs slots _ ↦ (∀ t v, .shift t v ∈ evs → t.Sound) →
    ∃ xs, Spelled grammar Typed slots xs) (fun _ ↦ ⟨[], .bottom rfl⟩) ?_ hsound
  intro evs slots slots' s s' ev _ ih hev hsound
  obtain ⟨xs, hs⟩ := ih fun t v hmem ↦ hsound t v (List.mem_append_left _ hmem)
  refine hev.spelled hs typed_error ?_ ?_
  · rintro t v rfl ⟨⟩
    exact typed_ofToken (hsound t _ (List.mem_append_right _ (List.mem_singleton.mpr rfl)))
  · rintro x rest k p v rfl hrule hhas hverdict
    exact (typed_completed i ctx hs hrule hhas hverdict).2 v rfl

theorem tells_of_stopped {cause : Abort}
    (h : Stopped (engine ctx options) (reducer i.watched ctx) ⟨(state, []), #[]⟩ cause evs slots s)
    (hsound : ∀ t v, .shift t v ∈ evs → t.Sound) : Tells ctx evs s := by
  cases h with
  | start d hm =>
    rcases hm with rfl | rfl
    · exact ⟨rfl, fun _ _ hmem ↦ by cases hmem⟩
    · exact ⟨rfl, fun _ _ hmem ↦ by cases hmem⟩
  | unrecoverable file line h => exact tells_of_trace h
  | fatal h hrule hhas hverdict =>
    obtain ⟨xs, hs⟩ := typed_of_trace h fun t v hmem ↦ hsound t v (List.mem_append_left _ hmem)
    exact ((typed_completed i.watched ctx hs hrule hhas hverdict).1 _ rfl).elim
  | @overflow _ _ _ x _ m' _ d h hev _ =>
    exact ((tells_of_trace h).does hev).of_record (record_releaseAll i x.value.handles m')

theorem record_clear (i : Interpretation H ε σ ω) (ctx : Context)
    (c : Config (Value H) (Session (σ × List (Exchange H ε)))) :
    (Engine.clear (reducer i.watched ctx) c).memory.record = c.memory.record := by
  rw [Engine.memory_clear]
  generalize c.stack.slots = slots
  generalize c.memory = s
  induction slots generalizing s with
  | nil => rfl
  | cons x slots ih => exact (ih _).trans (record_releaseAll i x.value.handles s)

theorem Tells.clear {c : Config (Value H) (Session (σ × List (Exchange H ε)))}
    (h : Tells ctx c.log.toList c.memory) :
    Tells ctx (Engine.clear (reducer i.watched ctx) c).log.toList
      (Engine.clear (reducer i.watched ctx) c).memory := by
  rw [Engine.log_clear]
  exact h.of_record (record_clear i ctx c)

/-- A token that is shifted is one of the source, or an end of it. -/
theorem sound_of_shift {c : Config (Value H) (Session σ)} {tokens : List Token}
    (hin : c.InOrder tokens) (hsound : ∀ t ∈ tokens, t.Sound) {t : Token} {v : Value H}
    (hmem : .shift t v ∈ c.log.toList) : t.Sound := by
  obtain ⟨ends, hends, heq, -⟩ := hin
  have hconsumed : t ∈ c.consumed := List.mem_filterMap.mpr ⟨_, hmem, rfl⟩
  have hall : t ∈ tokens ++ ends := by
    rw [← heq]
    exact List.mem_append_left _ (List.mem_append_left _ hconsumed)
  rcases List.mem_append.mp hall with ht | ht
  · exact hsound t ht
  · unfold Token.Sound
    rw [hends t ht]
    trivial

/-- The record of a run tells which calls were made, and what is accepted is a list of entries. -/
theorem tells_run (i : Interpretation H ε σ ω) (ctx : Context) (options : Options)
    {tokens : List Token} (hsound : ∀ t ∈ tokens, t.Sound) (state : σ) :
    Tells ctx (run i.watched ctx options tokens (state, [])).2.log.toList
        (run i.watched ctx options tokens (state, [])).2.memory ∧
      ∀ v, (run i.watched ctx options tokens (state, [])).1 = .accepted v →
        ∃ entries, v = .list entries := by
  unfold run Engine.run
  generalize stepBudget tokens.length = budget
  have hends := Engine.ends_inOrder (e := engine ctx options) (r := reducer i.watched ctx)
    tables_engine tokens ⟨(state, []), #[]⟩ budget
  generalize (engine ctx options).steps _ budget _ = st at hends
  cases st with
  | running c => exact ⟨tells_of_trace hends.1, fun v hv ↦ by cases hv⟩
  | aborted cause c =>
    obtain ⟨hstopped, hin⟩ := hends
    refine ⟨?_, fun v hv ↦ by cases hv⟩
    have hclear := (tells_of_stopped hstopped fun t v ↦ sound_of_shift hin hsound).clear (i := i)
    change Tells ctx ((Engine.clear (reducer i.watched ctx) c).log.push _).toList _
    rw [Array.toList_push]
    exact hclear.report _
  | accepted v c =>
    obtain ⟨⟨x, y, htrace, hhas, rfl, -⟩, hin⟩ := hends
    refine ⟨(tells_of_trace htrace).clear, ?_⟩
    rintro _ ⟨⟩
    obtain ⟨xs, hs⟩ := typed_of_trace htrace fun t v ↦ sound_of_shift hin hsound
    have hpath := hs.path
    obtain ⟨-, rfl⟩ := hpath.accept hhas
    cases hs with
    | push _ _ hv => exact hv

end Runs

/-! ## Two parses -/

section Two

variable {ctx : Context} {s : Session (σ × List (Exchange H ε))}
  {s' : Session (τ × List (Exchange K φ))} {evs : List (Event (Value H))}
  {evs' : List (Event (Value K))}

/-- As far as both lists of calls go, what was granted in the one was granted in the other. -/
def Agree (calls calls' : List Call) : Prop :=
  ∀ (n : Nat) (a b : Bool), (grants calls)[n]? = some a → (grants calls')[n]? = some b → a = b

theorem grants_append (calls calls' : List Call) :
    grants (calls ++ calls') = grants calls ++ grants calls' :=
  List.filterMap_append

theorem Agree.of_append {calls calls' rest rest' : List Call}
    (h : Agree (calls ++ rest) (calls' ++ rest')) : Agree calls calls' := by
  intro n a b ha hb
  obtain ⟨hn, -⟩ := List.getElem?_eq_some_iff.mp ha
  obtain ⟨hn', -⟩ := List.getElem?_eq_some_iff.mp hb
  refine h n a b ?_ ?_
  · rwa [grants_append, List.getElem?_append_left hn]
  · rwa [grants_append, List.getElem?_append_left hn']

/-- A production that makes a request is answered once. -/
theorem grants_calls {p : Production} {origin : Provenance}
    (h : (p.request? origin).isSome = true) (granted : Bool) :
    grants (p.calls origin granted) = [granted] := by
  obtain ⟨request, hrequest⟩ := Option.isSome_iff_exists.mp h
  unfold Production.calls
  rw [grants_append, hrequest]
  cases p.warning? <;> rfl

/-- Where the answers agree, two records do not part. -/
theorem not_parted (h : Tells ctx evs s) (h' : Tells ctx evs' s')
    (hagree : Agree (evs.flatMap (callsAt ctx)) (evs'.flatMap (callsAt ctx))) :
    ¬Parted evs evs' := by
  rintro ⟨before, red, verdict, before', red', verdict', ⟨after, rfl⟩, ⟨after', rfl⟩, hbefore, hred,
    hverdict⟩
  obtain ⟨p, hp, hsettled⟩ := h.settled red verdict (by simp)
  obtain ⟨p', hp', hsettled'⟩ := h'.settled red' verdict' (by simp)
  have hrule : red.rule = red'.rule := congrArg Reduction.rule hred
  have hspan : red.span = red'.span := congrArg Reduction.span hred
  rw [hrule] at hp
  cases Option.some.inj (hp.symm.trans hp')
  rw [hspan] at hsettled
  -- If neither or both are refused, they look the same.
  have hne : verdict.isValue ≠ verdict'.isValue := by
    rcases hsettled with hv | ⟨⟨message, rfl⟩, -⟩ <;>
      rcases hsettled' with hv' | ⟨⟨message', rfl⟩, -⟩
    · cases verdict <;> cases hv
      cases verdict' <;> cases hv'
      exact (hverdict rfl).elim
    · simp [hv]
    · simp [hv']
    · exact (hverdict rfl).elim
  have hrequest : (p.action.request? (ctx.provenance red'.span)).isSome = true := by
    rcases hsettled with hv | ⟨-, hrequest⟩
    · rcases hsettled' with hv' | ⟨-, hrequest⟩
      · exact (hne (hv.trans hv'.symm)).elim
      · exact hrequest
    · exact hrequest
  simp only [List.flatMap_append, List.flatMap_singleton] at hagree
  have hparts := hagree.of_append
  have hcalls := calls_of_outline ctx hbefore
  rw [hcalls] at hparts
  refine hne (hparts (grants (before'.flatMap (callsAt ctx))).length _ _ ?_ ?_)
  · simp only [grants_append, callsAt, hrule, hp', hspan, grants_calls hrequest,
      List.getElem?_concat_length]
  · simp only [grants_append, callsAt, hp', grants_calls hrequest, List.getElem?_concat_length]

/-- A parse under an interpretation leaves the record that it leaves if the interpretation is
watched. -/
theorem outline_log_watched (i : Interpretation H ε σ ω) (ctx : Context) (options : Options)
    (tokens : List Token) (state : σ) :
    (run i ctx options tokens state).2.log.toList.map Event.outline =
      (run i.watched ctx options tokens (state, [])).2.log.toList.map Event.outline := by
  have hrun := Engine.run_map (maps_reducer (maps_watched i) ctx) (engine ctx options)
    (stepBudget tokens.length) tokens ⟨(state, []), #[]⟩
  have hlog : (run i ctx options tokens state).2.log =
      (run i.watched ctx options tokens (state, [])).2.log.map (Event.map (Value.map id)) :=
    congrArg (fun out ↦ out.2.log) hrun
  rw [hlog, Array.toList_map, List.map_map]
  exact List.map_congr_left fun ev _ ↦ Event.outline_map _ ev

/-- The call that ends a run. -/
def endingOf : Outcome V → List Call
  | .accepted _ => [.finished]
  | _ => []

theorem endingOf_outline (out : Outcome V) : endingOf out.outline = endingOf out := by
  cases out <;> rfl

theorem calls_conclude {i : Interpretation H ε σ ω} {ctx : Context}
    {out : Outcome (Value H) × Config (Value H) (Session (σ × List (Exchange H ε)))}
    (hlist : ∀ v, out.1 = .accepted v → ∃ entries, v = .list entries) :
    (conclude i.watched ctx out).2.2.map Exchange.outline =
      out.2.memory.record.map Exchange.outline ++ endingOf out.1 := by
  obtain ⟨out, c⟩ := out
  cases out with
  | accepted v =>
    obtain ⟨entries, rfl⟩ := hlist v rfl
    exact List.map_append
  | aborted cause => exact (List.append_nil _).symm
  | unfinished => exact (List.append_nil _).symm

/-- How a parse comes out is seen from how its run does, and from what was reported. -/
theorem outline_conclude {i : Interpretation H ε σ ω} {j : Interpretation K φ τ ψ} {ctx : Context}
    {out : Outcome (Value H) × Config (Value H) (Session σ)}
    {out' : Outcome (Value K) × Config (Value K) (Session τ)}
    (hlist : ∀ v, out.1 = .accepted v → ∃ entries, v = .list entries)
    (hlist' : ∀ v, out'.1 = .accepted v → ∃ entries, v = .list entries)
    (hout : out.1.outline = out'.1.outline)
    (hds : (conclude i ctx out).1.diagnostics.map Diagnostic.outline =
      (conclude j ctx out').1.diagnostics.map Diagnostic.outline) :
    (conclude i ctx out).1.outline = (conclude j ctx out').1.outline := by
  obtain ⟨out, c⟩ := out
  obtain ⟨out', c'⟩ := out'
  cases out with
  | accepted v =>
    obtain ⟨entries, rfl⟩ := hlist v rfl
    cases out' with
    | accepted v' =>
      obtain ⟨entries', rfl⟩ := hlist' v' rfl
      exact congrArg (Parsed.complete ()) hds
    | aborted cause' => cases hout
    | unfinished => cases hout
  | aborted cause =>
    cases out' with
    | aborted cause' =>
      cases hout
      exact congrArg (Parsed.failed cause) hds
    | accepted v' => cases hout
    | unfinished => cases hout
  | unfinished =>
    cases out' with
    | unfinished => rfl
    | accepted v' => cases hout
    | aborted cause' => cases hout

/-- Two parses of tokens of the same kinds at the same places, under interpretations whose answers
agree, are alike: they take the same steps and make the same calls, and they come out the same and
with the same diagnostics. What tokens carry, what objects are and what is remembered does not
matter; it is seen in the words of refusals and of tokens that are none only. -/
theorem outline_parse (i : Interpretation H ε σ ω) (j : Interpretation K φ τ ψ) (ctx : Context)
    (options : Options) {tokens tokens' : List Token}
    (htokens : tokens.map Token.outline = tokens'.map Token.outline)
    (hsound : ∀ t ∈ tokens, t.Sound) (hsound' : ∀ t ∈ tokens', t.Sound) (state : σ) (state' : τ)
    (hagree : Agree ((parse i.watched ctx options tokens (state, [])).2.2.map Exchange.outline)
      ((parse j.watched ctx options tokens' (state', [])).2.2.map Exchange.outline)) :
    (run i ctx options tokens state).2.log.toList.map Event.outline =
        (run j ctx options tokens' state').2.log.toList.map Event.outline ∧
      (parse i.watched ctx options tokens (state, [])).2.2.map Exchange.outline =
        (parse j.watched ctx options tokens' (state', [])).2.2.map Exchange.outline ∧
      (parse i ctx options tokens state).1.outline =
        (parse j ctx options tokens' state').1.outline := by
  obtain ⟨htells, hlist⟩ := tells_run i ctx options hsound state
  obtain ⟨htells', hlist'⟩ := tells_run j ctx options hsound' state'
  have hcalls : (parse i.watched ctx options tokens (state, [])).2.2.map Exchange.outline = _ :=
    calls_conclude hlist
  have hcalls' : (parse j.watched ctx options tokens' (state', [])).2.2.map Exchange.outline = _ :=
    calls_conclude hlist'
  rw [hcalls, hcalls', htells.calls, htells'.calls] at hagree
  have hlength : tokens.length = tokens'.length := by simpa using congrArg List.length htokens
  obtain ⟨hout, hconfig⟩ : (run i.watched ctx options tokens (state, [])).1.outline =
      (run j.watched ctx options tokens' (state', [])).1.outline ∧
      (run i.watched ctx options tokens (state, [])).2.outline =
        (run j.watched ctx options tokens' (state', [])).2.outline := by
    have hrun := (engine ctx options).outline_run (r := reducer i.watched ctx)
      (q := reducer j.watched ctx) (stepBudget tokens.length) htokens ⟨(state, []), #[]⟩
      ⟨(state', []), #[]⟩
    refine Or.resolve_right ?_ (not_parted htells htells' hagree.of_append)
    unfold run
    rwa [← hlength]
  have hlog := Config.log_outline hconfig
  have hsame : (parse i.watched ctx options tokens (state, [])).2.2.map Exchange.outline =
      (parse j.watched ctx options tokens' (state', [])).2.2.map Exchange.outline := by
    have hending : endingOf (run i.watched ctx options tokens (state, [])).1 =
        endingOf (run j.watched ctx options tokens' (state', [])).1 := by
      rw [← endingOf_outline, hout, endingOf_outline]
    rw [hcalls, hcalls', htells.calls, htells'.calls, calls_of_outline ctx hlog, hending]
  refine ⟨?_, hsame, ?_⟩
  · exact (outline_log_watched i ctx options tokens state).trans
      (hlog.trans (outline_log_watched j ctx options tokens' state').symm)
  · rw [← (parse_watched i ctx options tokens state []).1,
      ← (parse_watched j ctx options tokens' state' []).1]
    refine outline_conclude hlist hlist' hout ?_
    have hds := congrArg (List.filterMap Call.reported?) hsame
    rw [filterMap_reported?_outline, filterMap_reported?_outline, told_parse, told_parse] at hds
    exact hds

/-- Objects are numbered, and transactions are refused. -/
def countingTransactionsOut : Interpretation Nat String Nat (List Nat) where
  construct
    | .transaction .., n => (.error "a transaction", n)
    | _, n => (.ok n, n + 1)
  declare _ n := (.ok (), n)
  report _ n := n
  release _ n := n
  finish entries n := (entries, n)
  message reason := reason

/-- The text of `slashedLot` in other words. -/
def rewordedLot : List Token :=
  slashedLot.map fun t ↦
    { t with payload := match t.payload with
      | .char _ => .char '!'
      | .text _ => .text "x"
      | .none => .none }

theorem grants_slashedLot :
    grants ((parse refusingTransactions.watched ⟨"", 0⟩ {} slashedLot ((), [])).2.2.map
        Exchange.outline) =
      grants ((parse countingTransactionsOut.watched ⟨"", 0⟩ {} rewordedLot (0, [])).2.2.map
        Exchange.outline) := by
  unfold parse run engine
  rw [tables_eq]
  decide +kernel

theorem Agree.of_eq {calls calls' : List Call} (h : grants calls = grants calls') :
    Agree calls calls' := by
  intro n a b ha hb
  rw [h, hb] at ha
  exact (Option.some.inj ha).symm

theorem outline_parse_slashedLot :
    (slashedLot.map Token.outline = rewordedLot.map Token.outline ∧
      (∀ t ∈ slashedLot, t.Sound) ∧ (∀ t ∈ rewordedLot, t.Sound) ∧
      Agree ((parse refusingTransactions.watched ⟨"", 0⟩ {} slashedLot ((), [])).2.2.map
          Exchange.outline)
        ((parse countingTransactionsOut.watched ⟨"", 0⟩ {} rewordedLot (0, [])).2.2.map
          Exchange.outline)) ∧
    (run refusingTransactions ⟨"", 0⟩ {} slashedLot ()).2.log.toList.map Event.outline =
        (run countingTransactionsOut ⟨"", 0⟩ {} rewordedLot 0).2.log.toList.map Event.outline ∧
      (parse refusingTransactions.watched ⟨"", 0⟩ {} slashedLot ((), [])).2.2.map
          Exchange.outline =
        (parse countingTransactionsOut.watched ⟨"", 0⟩ {} rewordedLot (0, [])).2.2.map
          Exchange.outline ∧
      (parse refusingTransactions ⟨"", 0⟩ {} slashedLot ()).1.outline =
        (parse countingTransactionsOut ⟨"", 0⟩ {} rewordedLot 0).1.outline := by
  have htokens : slashedLot.map Token.outline = rewordedLot.map Token.outline := rfl
  have hsound : ∀ t ∈ slashedLot, t.Sound := by simp [slashedLot, tokenOn, Token.Sound,
    Token.ofText, Token.ofFlag]
  have hsound' : ∀ t ∈ rewordedLot, t.Sound := by simp [rewordedLot, slashedLot, tokenOn,
    Token.Sound, Token.ofText, Token.ofFlag]
  have hagree := Agree.of_eq grants_slashedLot
  exact ⟨⟨htokens, hsound, hsound', hagree⟩, outline_parse refusingTransactions
    countingTransactionsOut ⟨"", 0⟩ {} htokens hsound hsound' () 0 hagree⟩

end Two

end Language

end PlainLedger
