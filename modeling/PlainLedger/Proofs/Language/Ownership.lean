import PlainLedger.Proofs.Language.Numbered
import PlainLedger.Proofs.Language.Termination
import PlainLedger.Proofs.Machine.Trace
import PlainLedger.Transcript

/-!
# Every object is used once

With numbered objects it can be told where each of them is at every moment of a parse: on the stack,
in the call that it went into, or dropped. It is never in two places. Only slots that recovery takes
off, completed rules that come to nothing and the end of a run that is given up make it drop.
-/

namespace PlainLedger.Language

variable {H ε σ ω : Type}

/-- The handles that a completed rule comes to. -/
def handlesOf : Verdict (Value H) → List H
  | .value v => v.handles
  | _ => []

/-- The numbers of the objects in the slots. -/
def slotNumbers (slots : List (Slot (Value (Numbered H)))) : List Nat :=
  numbers (slots.flatMap fun x ↦ x.value.handles)

/-- The objects that may drop at an event. -/
def losses : Event (Value (Numbered H)) → List Nat
  | .pop x => numbers x.value.handles
  | .reduce red (.rejected _) => numbers (red.values.flatMap Value.handles)
  | .reduce red (.fatal _) => numbers (red.values.flatMap Value.handles)
  | _ => []

/-! ## Completed rules -/

section Reduce

variable {i : Interpretation H ε σ ω} {ctx : Context} {origin : Provenance}
  {s s' : Session (Numbering σ)} {verdict : Verdict (Value (Numbered H))} {rest : List Nat}

/-- The objects go where the verdict says; if there is no value, some of them may be dropped. -/
structure Settles (s s' : Numbering σ) (hs : List (Numbered H))
    (verdict : Verdict (Value (Numbered H))) (rest : List Nat) : Prop where
  sound : s'.Sound (numbers (handlesOf verdict) ++ rest)
  lost : ∀ n ∈ s'.dropped, n ∈ s.dropped ∨ (∀ v, verdict ≠ .value v) ∧ n ∈ numbers hs

theorem Settles.of_dropped {s s' : Numbering σ} {hs : List (Numbered H)}
    (h : s'.Sound (numbers (handlesOf verdict) ++ rest)) (hdropped : s'.dropped = s.dropped) :
    Settles s s' hs verdict rest :=
  ⟨h, fun _ hn ↦ Or.inl (hdropped ▸ hn)⟩

theorem settles_perform {plan : Plan (Numbered H)}
    (h : s.state.Sound (numbers plan.handles ++ rest))
    (hs' : s.perform i.numbered origin plan = (verdict, s')) :
    Settles s.state s'.state plan.handles verdict rest := by
  cases plan with
  | keep v =>
    cases hs'
    exact .of_dropped h rfl
  | warn message v =>
    cases hs'
    exact .of_dropped (h.state _) rfl
  | construct c =>
    rcases hanswer : i.numbered.construct c s.state with ⟨answer, state⟩
    obtain ⟨hsound, hdropped⟩ := sound_construct h hanswer
    simp only [Session.perform, hanswer] at hs'
    cases hs'
    cases answer <;> exact .of_dropped hsound hdropped
  | measure c tolerance? =>
    rcases hanswer : i.numbered.construct c s.state with ⟨answer, state⟩
    rw [Plan.handles, numbers_append, List.append_assoc] at h
    obtain ⟨hsound, hdropped⟩ := sound_construct h hanswer
    cases answer with
    | ok a =>
      rw [perform_measure_ok i.numbered hanswer] at hs'
      cases hs'
      exact .of_dropped hsound hdropped
    | error reason =>
      rw [perform_measure_error i.numbered hanswer] at hs'
      cases hs'
      have hrefused : state.Sound (numbers tolerance?.toList ++ rest) := hsound
      obtain ⟨hreleased, hlost⟩ := sound_release (i := i) hrefused
      refine ⟨hreleased, fun n hn ↦ ?_⟩
      rcases List.mem_append.mp (hlost ▸ hn : n ∈ state.dropped ++ numbers tolerance?.toList) with
        hn | hn
      · exact Or.inl (hdropped ▸ hn)
      · refine Or.inr ⟨fun v h ↦ (by cases h), ?_⟩
        rw [Plan.handles, numbers_append]
        exact List.mem_append_right _ hn
  | declare d =>
    simp only [Session.perform] at hs'
    cases hs'
    refine .of_dropped ?_ rfl
    cases (i.numbered.declare d s.state).1 <;> exact h.state _

theorem bare_perform {plan : Plan (Numbered H)} {v : Value (Numbered H)} (h : plan.Bare)
    (hs' : s.perform i.numbered origin plan = (.value v, s')) : v.handles = [] := by
  cases plan with
  | keep w =>
    cases hs'
    exact h
  | warn message w =>
    cases hs'
    exact h
  | construct c => exact h.elim
  | measure c tolerance? => exact h.elim
  | declare d =>
    have hverdict := congrArg Prod.fst hs'
    simp only [Session.perform] at hverdict
    cases hanswer : (i.numbered.declare d s.state).1 with
    | ok _ =>
      rw [hanswer] at hverdict
      cases hverdict
      rfl
    | error reason =>
      rw [hanswer] at hverdict
      cases hverdict

/-- The objects of a right-hand side go where the verdict says. -/
theorem settles_reduce {k : Nat} {p : Rule Production} {red : Reduction (Value (Numbered H))}
    (hrule : grammar.rules[k]? = some p) (hvalues : List.Forall₂ Bare p.rhs red.values)
    (h : s.state.Sound (numbers (red.values.flatMap Value.handles) ++ rest))
    (hr : (reducer i.numbered ctx).reduce p.action red s = (verdict, s')) :
    Settles s.state s'.state (red.values.flatMap Value.handles) verdict rest ∧
      ∀ v, verdict = .value v → Bare (.nonterminal p.lhs) v := by
  obtain ⟨hasked, hyields⟩ := fitsForms hrule
  simp only [reducer] at hr
  split at hr
  · rename_i misfit _
    cases hr
    obtain ⟨hreleased, hlost⟩ := sound_release (i := i) h
    refine ⟨⟨hreleased, fun n hn ↦ ?_⟩, fun v hv ↦ by cases hv⟩
    rcases List.mem_append.mp (hlost ▸ hn : n ∈ s.state.dropped ++ numbers _) with hn | hn
    · exact Or.inl hn
    · exact Or.inr ⟨fun v h ↦ (by cases h), hn⟩
  · rename_i plan args hrun
    obtain ⟨-, howes⟩ := passes_plan p.action (ctx.provenance red.span)
      (txnFlag? p.action red.below) { pending := red.values } plan args hrun
    obtain ⟨hhandles, hspare⟩ := (howes (red.values.flatMap Value.handles)
      ⟨Form.spares_of_bare hvalues hasked, rfl, rfl⟩).of_nil
    rw [hspare] at hr
    rw [← hhandles] at h ⊢
    refine ⟨settles_perform h hr, ?_⟩
    rintro v rfl hbare
    have hplan := returns_bare (Form.le_blank_trans hyields hbare) _ _ _ _ _ hrun
    exact bare_perform hplan hr

end Reduce

/-! ## Runs -/

/-- What is known of the objects after some events. -/
structure Tracked (evs : List (Event (Value (Numbered H))))
    (slots : List (Slot (Value (Numbered H)))) (s : Session (Numbering σ)) : Prop where
  sound : s.state.Sound (slotNumbers slots)
  bare : ∃ xs, Spelled grammar Bare slots xs
  bottom : slots.getLast? = some ⟨0, .nothing, .start⟩
  lost : ∀ n ∈ s.state.dropped, ∃ ev ∈ evs, n ∈ losses ev

theorem slotNumbers_cons (x : Slot (Value (Numbered H)))
    (slots : List (Slot (Value (Numbered H)))) :
    slotNumbers (x :: slots) = numbers x.value.handles ++ slotNumbers slots := by
  unfold slotNumbers
  rw [List.flatMap_cons, numbers_append]

/-- The objects in the slots are those of the values that are taken off and those that stay. -/
theorem slotNumbers_perm (k n : Nat) (slots : List (Slot (Value (Numbered H)))) :
    (slotNumbers slots).Perm
      (numbers ((Reduction.ofSlots k n slots).values.flatMap Value.handles) ++
        slotNumbers (slots.drop n)) := by
  have hvalues : (Reduction.ofSlots k n slots).values.flatMap Value.handles =
      (slots.take n).reverse.flatMap fun x ↦ x.value.handles := List.flatMap_map ..
  unfold slotNumbers
  rw [hvalues, ← numbers_append]
  refine List.Perm.map _ ?_
  have hsplit : slots.flatMap (fun x ↦ x.value.handles) =
      (slots.take n).flatMap (fun x ↦ x.value.handles) ++
        (slots.drop n).flatMap fun x ↦ x.value.handles := by
    rw [← List.flatMap_append, List.take_append_drop]
  rw [hsplit]
  exact ((List.reverse_perm _).symm.flatMap_right _).append_right _

theorem getLast?_of_drop {β : Type} {xs ys : List β} {x y : β} {n : Nat}
    (hlast : xs.getLast? = some x)
    (hdrop : xs.drop n = y :: ys) : (y :: ys).getLast? = some x := by
  rw [← List.take_append_drop n xs, hdrop, List.getLast?_append] at hlast
  cases hl : (y :: ys).getLast? with
  | none => simp at hl
  | some z =>
    rw [hl] at hlast
    exact hlast

section Events

variable {i : Interpretation H ε σ ω} {ctx : Context} {options : Options}
  {s s' : Session (Numbering σ)} {evs : List (Event (Value (Numbered H)))}
  {slots slots' rest : List (Slot (Value (Numbered H)))} {x : Slot (Value (Numbered H))}
  {ev : Event (Value (Numbered H))}

theorem numbers_ofToken (t : Token) :
    numbers (Value.ofToken t : Value (Numbered H)).handles = [] := by
  unfold Value.ofToken
  cases t.payload <;> rfl

/-- What drops, drops at an event. -/
theorem Tracked.lost_snoc (h : Tracked evs slots s)
    (hlost : ∀ n ∈ s'.state.dropped, n ∈ s.state.dropped ∨ n ∈ losses ev) :
    ∀ n ∈ s'.state.dropped, ∃ ev' ∈ evs ++ [ev], n ∈ losses ev' := by
  intro n hn
  rcases hlost n hn with hn | hn
  · obtain ⟨ev', hmem, hn⟩ := h.lost n hn
    exact ⟨ev', List.mem_append_left _ hmem, hn⟩
  · exact ⟨ev, List.mem_append_right _ (List.mem_singleton.mpr rfl), hn⟩

/-- Nothing drops if no handle is put on top. -/
theorem Tracked.push (h : Tracked evs (x :: rest) s) {X : Symbol} {y : Slot (Value (Numbered H))}
    (hedge : grammar.Edge x.state X y.state) (hbare : Bare X y.value)
    (hempty : numbers y.value.handles = []) : Tracked (evs ++ [ev]) (y :: x :: rest) s := by
  obtain ⟨xs, hxs⟩ := h.bare
  refine ⟨?_, ⟨_, hxs.push hedge hbare⟩, ?_, h.lost_snoc fun n hn ↦ Or.inl hn⟩
  · rw [slotNumbers_cons, hempty]
    exact h.sound
  · rw [List.getLast?_cons_cons]
    exact h.bottom

/-- A completed rule takes its right-hand side off the stack. -/
theorem Tracked.complete {k : Nat} {p : Rule Production} {verdict : Verdict (Value (Numbered H))}
    (h : Tracked evs (x :: rest) s) (hrule : grammar.rules[k]? = some p)
    (hhas : grammar.Has x.state ⟨k, p.rhs.length⟩)
    (hverdict : (reducer i.numbered ctx).reduce p.action (.ofSlots k p.rhs.length (x :: rest)) s =
      (verdict, s')) :
    Settles s.state s'.state
        ((Reduction.ofSlots k p.rhs.length (x :: rest)).values.flatMap Value.handles) verdict
        (slotNumbers ((x :: rest).drop p.rhs.length)) ∧
      (∀ v, verdict = .value v → Bare (.nonterminal p.lhs) v) ∧
      ∃ xs, Spelled grammar Bare ((x :: rest).drop p.rhs.length) xs := by
  obtain ⟨xs, hxs⟩ := h.bare
  obtain ⟨-, -, hvalues, y, below, hbelow, -, hxs'⟩ := hxs.reduce hrule hhas
  have hsound := h.sound.perm (slotNumbers_perm k p.rhs.length _)
  obtain ⟨hsettles, hbare⟩ := settles_reduce hrule hvalues hsound hverdict
  rw [← hbelow] at hxs'
  exact ⟨hsettles, hbare, _, hxs'⟩

theorem Tracked.does (h : Tracked evs slots s)
    (hev : Does (engine ctx options) (reducer i.numbered ctx) slots s ev slots' s') :
    Tracked (evs ++ [ev]) slots' s' := by
  cases hev with
  | pull | discard => exact ⟨h.sound, h.bare, h.bottom, h.lost_snoc fun n hn ↦ Or.inl hn⟩
  | report d => exact ⟨h.sound.state _, h.bare, h.bottom, h.lost_snoc fun n hn ↦ Or.inl hn⟩
  | @shift x rest _ t n _ _ hedge hvalue =>
    cases hvalue
    exact h.push hedge (bare_ofToken t) (numbers_ofToken t)
  | @resume x rest _ n span hedge => exact h.push hedge bare_error rfl
  | @reduce x y rest below _ _ k n p v hrule hhas hbelow hedge hverdict =>
    obtain ⟨hsettles, hbare, xs, hxs⟩ := h.complete hrule hhas hverdict
    rw [hbelow] at hsettles hxs
    refine ⟨?_, ⟨_, hxs.push hedge (hbare v rfl)⟩, ?_, h.lost_snoc fun n hn ↦ ?_⟩
    · rw [slotNumbers_cons]
      exact hsettles.sound
    · rw [List.getLast?_cons_cons]
      exact getLast?_of_drop h.bottom hbelow
    · rcases hsettles.lost n hn with hn | ⟨hne, -⟩
      · exact Or.inl hn
      · exact (hne v rfl).elim
  | @reject x y rest below _ _ k p message hrule hhas hbelow hverdict =>
    obtain ⟨hsettles, -, hxs⟩ := h.complete hrule hhas hverdict
    rw [hbelow] at hsettles hxs
    refine ⟨hsettles.sound, hxs, getLast?_of_drop h.bottom hbelow, h.lost_snoc fun n hn ↦ ?_⟩
    exact (hsettles.lost n hn).imp_right And.right
  | @pop x y rest _ =>
    have hsound := h.sound
    rw [slotNumbers_cons] at hsound
    obtain ⟨hreleased, hlost⟩ := sound_release (i := i) hsound
    refine ⟨hreleased, ?_, h.bottom, h.lost_snoc fun n hn ↦ ?_⟩
    · obtain ⟨xs, hxs⟩ := h.bare
      cases hxs with
      | push hxs' _ _ => exact ⟨_, hxs'⟩
    · exact List.mem_append.mp (hlost ▸ hn : n ∈ s.state.dropped ++ numbers x.value.handles)

end Events

section Runs

variable {i : Interpretation H ε σ ω} {ctx : Context} {options : Options} {state : σ}
  {s : Session (Numbering σ)} {evs : List (Event (Value (Numbered H)))}
  {slots : List (Slot (Value (Numbered H)))}

/-- No object has been made yet. -/
def Session.fresh (state : σ) : Session (Numbering σ) := ⟨{ state }, #[]⟩

theorem Numbering.sound_fresh (state : σ) : ({ state } : Numbering σ).Sound [] :=
  ⟨rfl, .nil, fun before p after h ↦ by cases before <;> cases h⟩

theorem Tracked.of_trace
    (h : Trace (engine ctx options) (reducer i.numbered ctx) (.fresh state) evs slots s) :
    Tracked evs slots s :=
  h.keeps (P := Tracked)
    ⟨Numbering.sound_fresh state, ⟨[], .bottom rfl⟩, rfl, fun n hn ↦ by cases hn⟩
    fun _ h hev ↦ h.does hev

/-- When a run is given up, only a slot that there is no room for drops without an event. -/
theorem tracked_of_stopped {cause : Abort}
    (h : Stopped (engine ctx options) (reducer i.numbered ctx) (.fresh state) cause evs slots s) :
    s.state.Sound (slotNumbers slots) ∧
      ((∀ n ∈ s.state.dropped, ∃ ev ∈ evs, n ∈ losses ev) ∨ ∃ d, cause = .stackOverflow d) := by
  cases h with
  | start d hm =>
    refine ⟨?_, Or.inr ⟨d, rfl⟩⟩
    rcases hm with rfl | rfl <;> exact Numbering.sound_fresh state
  | unrecoverable file line h =>
    have htracked := Tracked.of_trace h
    exact ⟨htracked.sound, Or.inl htracked.lost⟩
  | fatal h hrule hhas hverdict =>
    have htracked := Tracked.of_trace h
    obtain ⟨hsettles, -, -⟩ := htracked.complete hrule hhas hverdict
    refine ⟨hsettles.sound, Or.inl (htracked.lost_snoc fun n hn ↦ ?_)⟩
    exact (hsettles.lost n hn).imp_right And.right
  | overflow d h hev hpush =>
    have hsound := ((Tracked.of_trace h).does hev).sound
    rw [slotNumbers_cons] at hsound
    exact ⟨(sound_release (i := i) hsound).1, Or.inr ⟨d, rfl⟩⟩

end Runs

/-! ## Whole parses -/

/-- At a moment of a run every object is in one place, and what has been dropped went at an
event. -/
structure Accounted (c : Config (Value (Numbered H)) (Session (Numbering σ))) : Prop where
  sound : c.memory.state.Sound (slotNumbers c.stack.slots)
  lost : ∀ n ∈ c.memory.state.dropped, ∃ ev ∈ c.log, n ∈ losses ev

/-- What has become of the objects when a parse is over: each of them has gone into one call or has
been dropped. -/
structure UsedOnce
    (out : Outcome (Value (Numbered H)) × Config (Value (Numbered H)) (Session (Numbering σ)))
    (parsed : Parsed ω × Numbering σ) : Prop where
  sound : parsed.2.Sound []
  /-- What drops, drops at an event or when the parse is given up. -/
  lost : ∀ n ∈ parsed.2.dropped, (∃ ev ∈ out.2.log, n ∈ losses ev) ∨
    ∀ whole ds, parsed.1 ≠ .complete whole ds
  /-- Nothing drops if nothing goes wrong. -/
  spared : out.2.recoveries = 0 → ∀ whole ds, parsed.1 = .complete whole ds →
    parsed.2.dropped = []

theorem UsedOnce.of_failed
    {out : Outcome (Value (Numbered H)) × Config (Value (Numbered H)) (Session (Numbering σ))}
    {cause : Abort} {ds : List Diagnostic} {s : Numbering σ} (h : s.Sound []) :
    UsedOnce out ((.failed cause ds : Parsed ω), s) where
  sound := h
  lost _ _ := Or.inr fun _ _ h ↦ by cases h
  spared _ _ _ h := by cases h

section Parses

variable {i : Interpretation H ε σ ω} {ctx : Context} {options : Options} {state : σ}

/-- What is left on the stack in the end is dropped. -/
theorem sound_clear {rest : List Nat} {c : Config (Value (Numbered H)) (Session (Numbering σ))}
    (h : c.memory.state.Sound (slotNumbers c.stack.slots ++ rest)) :
    (Engine.clear (reducer i.numbered ctx) c).memory.state.Sound rest ∧
      (Engine.clear (reducer i.numbered ctx) c).memory.state.dropped =
        c.memory.state.dropped ++ slotNumbers c.stack.slots := by
  rw [Engine.memory_clear]
  generalize c.stack.slots = slots at h ⊢
  generalize c.memory = s at h ⊢
  induction slots generalizing s with
  | nil => exact ⟨h, (List.append_nil _).symm⟩
  | cons x slots ih =>
    rw [slotNumbers_cons, List.append_assoc] at h
    obtain ⟨hsound, hdropped⟩ := sound_release (i := i) h
    obtain ⟨hcleared, hlost⟩ := ih ((reducer i.numbered ctx).release x.value s) hsound
    refine ⟨hcleared, ?_⟩
    rw [slotNumbers_cons, ← List.append_assoc, ← hdropped]
    exact hlost

/-- No event makes an object drop unless something goes wrong. -/
theorem losses_of_not_isMishap {ev : Event (Value (Numbered H))} (h : ev.isMishap = false) :
    losses ev = [] := by
  cases ev with
  | pop x => cases h
  | reduce red verdict =>
    cases verdict with
    | value v => rfl
    | rejected message => cases h
    | fatal cause => cases h
  | _ => rfl

/-- A text that has been accepted leaves the objects of its value. -/
theorem accounted_of_accepted {v : Value (Numbered H)}
    {c : Config (Value (Numbered H)) (Session (Numbering σ))}
    (h : c.Accepted (engine ctx options) (reducer i.numbered ctx) (.fresh state) v) :
    (Engine.clear (reducer i.numbered ctx) c).memory.state.Sound (numbers v.handles) ∧
      ∀ n ∈ (Engine.clear (reducer i.numbered ctx) c).memory.state.dropped,
        ∃ ev ∈ c.log, n ∈ losses ev := by
  obtain ⟨x, y, htrace, -, rfl, hslots⟩ := h
  have htracked := Tracked.of_trace htrace
  have hbottom : y = ⟨0, .nothing, .start⟩ := Option.some.inj htracked.bottom
  have hempty : slotNumbers c.stack.slots = [] := by
    rw [hslots, hbottom]
    rfl
  have hsound := htracked.sound
  rw [slotNumbers_cons, ← hslots] at hsound
  have hstack : c.memory.state.Sound (slotNumbers c.stack.slots ++ numbers x.value.handles) :=
    hsound.perm List.perm_append_comm
  obtain ⟨hcleared, hlost⟩ := sound_clear hstack
  refine ⟨hcleared, fun n hn ↦ ?_⟩
  rw [hlost, hempty, List.append_nil] at hn
  obtain ⟨ev, hmem, hn⟩ := htracked.lost n hn
  exact ⟨ev, Array.mem_toList_iff.mp hmem, hn⟩

theorem usedOnce_conclude {s : Step (Value (Numbered H)) (Session (Numbering σ))}
    (h : Config.Continues (engine ctx options) (reducer i.numbered ctx) (.fresh state) s)
    (hunhurt : s.Post Config.Unhurt (fun _ c ↦ c.Unhurt) fun _ _ ↦ True)
    (hend : ((engine ctx options).finish (reducer i.numbered ctx) s).1 ≠ .unfinished) :
    UsedOnce ((engine ctx options).finish (reducer i.numbered ctx) s)
      (conclude i.numbered ctx ((engine ctx options).finish (reducer i.numbered ctx) s)) := by
  cases s with
  | running c => exact (hend rfl).elim
  | aborted cause c =>
    obtain ⟨hsound, -⟩ := tracked_of_stopped h
    rw [← List.append_nil (slotNumbers _)] at hsound
    exact .of_failed ((sound_clear hsound).1.state _)
  | accepted v c =>
    obtain ⟨hsound, hlost⟩ := accounted_of_accepted h
    rw [← List.append_nil (numbers _)] at hsound
    by_cases hlist : ∃ hs, v = .list hs
    · obtain ⟨hs, rfl⟩ := hlist
      rw [Value.handles] at hsound
      obtain ⟨hfinish, hdropped⟩ := sound_finish (i := i) hsound
      have hlog : ((engine ctx options).finish (reducer i.numbered ctx)
          (.accepted (.list hs) c)).2.log = c.log := Engine.log_clear c
      refine ⟨hfinish, fun n hn ↦ Or.inl ?_, fun hrecoveries whole ds _ ↦ ?_⟩
      · rw [hlog]
        exact hlost n (hdropped ▸ hn)
      · refine hdropped.trans (List.eq_nil_iff_forall_not_mem.mpr fun n hn ↦ ?_)
        obtain ⟨ev, hmem, hn⟩ := hlost n hn
        rw [Engine.recoveries_finish] at hrecoveries
        rcases hunhurt with hresumed | hharmless
        · exact hresumed.ne' hrecoveries
        · rw [losses_of_not_isMishap (hharmless ev hmem)] at hn
          cases hn
    · have hne : ∀ hs, v ≠ .list hs := fun hs h ↦ hlist ⟨hs, h⟩
      have hstray := conclude_of_ne_list i.numbered ctx hne
        (Engine.clear (reducer i.numbered ctx) c)
      rw [show (engine ctx options).finish (reducer i.numbered ctx) (.accepted v c) =
        (.accepted v, Engine.clear (reducer i.numbered ctx) c) from rfl, hstray]
      exact .of_failed ((sound_release (i := i) hsound).1.state _)

end Parses

/-! ## Transcripts -/

/-- A transcript has handed out the objects that were made, and has got back those that have gone
into a call or have been dropped. -/
def Balanced (s : Numbering Transcript) : Prop :=
  s.state.acquired = s.next ∧ s.state.released.size = s.moved.length + s.dropped.length

theorem transcript_releaseAll (t : Transcript) (hs : List Transcript.Handle) :
    (t.releaseAll hs).acquired = t.acquired ∧
      (t.releaseAll hs).released.size = t.released.size + hs.length := by
  unfold Transcript.releaseAll
  induction hs generalizing t with
  | nil => exact ⟨rfl, rfl⟩
  | cons x hs ih =>
    obtain ⟨hacquired, hsize⟩ := ih (t.release x)
    refine ⟨hacquired, hsize.trans ?_⟩
    rw [Transcript.release, Array.size_push, List.length_cons]
    omega

/-- Objects that have been used come back. -/
theorem Balanced.pass {s : Numbering Transcript} {t : Transcript} {p : Passage} (h : Balanced s)
    (hacquired : t.acquired = s.state.acquired)
    (hsize : t.released.size = s.state.released.size + (p.moves.length + p.drops.length)) :
    Balanced ({ s with state := t }.pass p) := by
  refine ⟨hacquired.trans h.1, hsize.trans ?_⟩
  rw [Numbering.moved_pass, Numbering.dropped_pass, List.length_append, List.length_append, h.2]
  exact Nat.add_add_add_comm _ _ _ _

theorem Balanced.move {s : Numbering Transcript} {hs : List (Numbered Transcript.Handle)}
    {t : Transcript} (h : Balanced s) (hacquired : t.acquired = s.state.acquired)
    (hreleased : t.released = s.state.released) :
    Balanced (Numbering.pass { s with state := t.releaseAll (hs.map Numbered.object) }
      (.moved (hs.map Numbered.number))) := by
  obtain ⟨hsame, hsize⟩ := transcript_releaseAll t (hs.map Numbered.object)
  refine h.pass (hsame.trans hacquired) (hsize.trans ?_)
  rw [hreleased]
  simp [Passage.moves, Passage.drops]

/-- An object that is handed out is a new one. -/
theorem Balanced.make {s : Numbering Transcript} {t : Transcript} (h : Balanced s)
    (hacquired : t.acquired = s.state.acquired + 1)
    (hsize : t.released.size = s.state.released.size) :
    Balanced (Numbering.pass { s with state := t, next := s.next + 1 } (.made s.next)) := by
  refine ⟨hacquired.trans (congrArg Nat.succ h.1), (hsize.trans h.2).trans ?_⟩
  rw [Numbering.moved_pass, Numbering.dropped_pass]
  simp [Passage.moves, Passage.drops, Numbering.moved, Numbering.dropped]

theorem keeps_balanced : Transcript.interpretation.numbered.Keeps Balanced where
  construct c s h := by
    have hmove : ∀ {t : Transcript}, t.acquired = s.state.acquired →
        t.released = s.state.released →
        Balanced (s.moveInto c (t.releaseAll (c.map Numbered.object).handles)) := by
      intro t hacquired hreleased
      rw [Construction.handles_map]
      exact h.move hacquired hreleased
    by_cases hrefused : s.state.refuses (c.map Numbered.object).name
        (Transcript.objectText (c.map Numbered.object)) = true
    · rw [construct_numbered_error (if_pos hrefused)]
      exact hmove rfl rfl
    · rw [construct_numbered_ok (if_neg hrefused)]
      obtain ⟨hbefore, hsize⟩ := transcript_releaseAll s.state (c.map Numbered.object).handles
      refine (hmove (t := s.state) rfl rfl).make ?_ ?_
      · exact (transcript_releaseAll _ _).1.trans (congrArg Nat.succ hbefore.symm)
      · exact (transcript_releaseAll _ _).2.trans hsize.symm
  declare d s h := by
    have hdeclare : ∀ d (t : Transcript), (t.declare d).2.acquired = t.acquired ∧
        (t.declare d).2.released = t.released := by
      intro d t
      unfold Transcript.declare
      dsimp only
      split <;> exact ⟨rfl, rfl⟩
    obtain ⟨hacquired, hreleased⟩ := hdeclare d s.state
    exact ⟨hacquired.trans h.1, (congrArg Array.size hreleased).trans h.2⟩
  report d s h := h
  release x s h := h.pass rfl (Array.size_push _)
  finish hs s h := h.move rfl rfl

/-- What has been handed out has come back. -/
theorem live_of_balanced {s : Numbering Transcript} (h : Balanced s) (hsound : s.Sound []) :
    s.state.acquired = s.state.released.size ∧ s.state.live = 0 := by
  have hplaces := hsound.places.length_eq
  rw [List.append_nil, List.length_range, List.length_append] at hplaces
  have hequal : s.state.acquired = s.state.released.size := h.1.trans (hplaces.trans h.2.symm)
  exact ⟨hequal, Nat.sub_eq_zero_of_le hequal.le⟩

/-! ## The whole account -/

section Account

variable (i : Interpretation H ε σ ω) (ctx : Context) (options : Options) (tokens : List Token)
  (state : σ)

/-- At every moment of a run the objects are accounted for; if there was no room for a slot, its
objects have been dropped. -/
theorem post_accounted (n : Nat) :
    ((engine ctx options).steps (reducer i.numbered ctx) n
      ((engine ctx options).start (reducer i.numbered ctx) tokens (.fresh state))).Post Accounted
      (fun _ _ ↦ True) fun cause c ↦ Accounted c ∨
        c.memory.state.Sound (slotNumbers c.stack.slots) ∧ ∃ d, cause = .stackOverflow d := by
  have hlog : ∀ {c : Config (Value (Numbered H)) (Session (Numbering σ))} {n : Nat},
      (∃ ev ∈ c.log.toList, n ∈ losses ev) → ∃ ev ∈ c.log, n ∈ losses ev := by
    rintro c n ⟨ev, hmem, hn⟩
    exact ⟨ev, Array.mem_toList_iff.mp hmem, hn⟩
  refine (Engine.continues_steps tables_engine n tokens _).imp (fun c h ↦ ?_)
    (fun _ _ _ ↦ trivial) fun cause c h ↦ ?_
  · have htracked := Tracked.of_trace h
    exact ⟨htracked.sound, fun n hn ↦ hlog (htracked.lost n hn)⟩
  · obtain ⟨hsound, hlost | hover⟩ := tracked_of_stopped h
    · exact Or.inl ⟨hsound, fun n hn ↦ hlog (hlost n hn)⟩
    · exact Or.inr ⟨hsound, hover⟩

theorem usedOnce_parse :
    UsedOnce (run i.numbered ctx options tokens { state })
      (parse i.numbered ctx options tokens { state }) := by
  have hend := run_ne_unfinished i.numbered ctx options tokens { state }
  unfold parse run Engine.run at *
  generalize stepBudget tokens.length = budget at *
  exact usedOnce_conclude (Engine.continues_steps tables_engine budget tokens _)
    (Engine.unhurt_steps tables_engine budget tokens _) hend

/-- Every object is used once. Numbers tell the objects apart and change nothing else. At every
moment an object is on the stack, in one call that it has gone into, or dropped; it is never in two
places. When the parse is over it has gone into one call or has been dropped, and it drops only at a
slot that recovery takes off, at a completed rule that comes to nothing, or when the run is given
up. A transcript has then got back all that it has handed out. -/
theorem objects_used_once :
    parse i ctx options tokens state =
        ((parse i.numbered ctx options tokens { state }).1,
          (parse i.numbered ctx options tokens { state }).2.state) ∧
      (∀ n, ((engine ctx options).steps (reducer i.numbered ctx) n
        ((engine ctx options).start (reducer i.numbered ctx) tokens (.fresh state))).Post Accounted
        (fun _ _ ↦ True) fun cause c ↦ Accounted c ∨
          c.memory.state.Sound (slotNumbers c.stack.slots) ∧ ∃ d, cause = .stackOverflow d) ∧
      UsedOnce (run i.numbered ctx options tokens { state })
        (parse i.numbered ctx options tokens { state }) ∧
      ∀ refusedNames refusedTexts,
        let t := (parse Transcript.interpretation ctx options tokens
          { refusedNames, refusedTexts }).2
        t.acquired = t.released.size ∧ t.live = 0 := by
  refine ⟨parse_numbered i ctx options tokens { state }, post_accounted i ctx options tokens state,
    usedOnce_parse i ctx options tokens state, fun refusedNames refusedTexts ↦ ?_⟩
  have hbalanced : Balanced { state := { refusedNames, refusedTexts } } := ⟨rfl, rfl⟩
  have hlive := live_of_balanced (parse_keeps keeps_balanced ctx options tokens hbalanced)
    (usedOnce_parse Transcript.interpretation ctx options tokens
      { refusedNames, refusedTexts }).sound
  -- what is compared are the two results, and not how they come about
  have hresult : ∀ {p : Parsed (List String) × Transcript}
      {q : Parsed (List String) × Numbering Transcript}, p = (q.1, q.2.state) →
      q.2.state.acquired = q.2.state.released.size ∧ q.2.state.live = 0 →
      p.2.acquired = p.2.released.size ∧ p.2.live = 0 := by
    rintro p q rfl h
    exact h
  exact hresult (parse_numbered Transcript.interpretation ctx options tokens
    { state := { refusedNames, refusedTexts } }) hlive

end Account

end PlainLedger.Language
