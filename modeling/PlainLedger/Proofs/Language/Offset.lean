import PlainLedger.Proofs.Language.Diagnostics
import PlainLedger.Proofs.Language.Entries
import PlainLedger.Proofs.Language.Impartial
import PlainLedger.Proofs.Language.Listing
import PlainLedger.Proofs.Language.Numbered
import PlainLedger.Proofs.Language.Spending
import PlainLedger.Proofs.Language.Termination
import PlainLedger.Proofs.Machine.Offset

/-!
# Parses of texts that begin elsewhere

Where a text begins in its file is seen in the lines of requests and of messages only. If an
interpretation does not mind them in what it grants, then two parses of the same tokens, one of
which counts lines from `k` lines further down, make the same requests, come to the same end, and
say the same, each on its own lines.
-/

namespace PlainLedger

/-- The place that is `k` lines further down. -/
def Provenance.offset (k : Int) (origin : Provenance) : Provenance :=
  ⟨origin.file, origin.line.offset k⟩

theorem Context.provenance_offset (file : String) (k : LineOffset) {span : Span}
    (h : span.LinesFit) :
    (⟨file, k⟩ : Context).provenance span =
      ((⟨file, 0⟩ : Context).provenance span).offset k :=
  congrArg (Provenance.mk file) (lineOf_offset file k h)

namespace Language

variable {H P ε σ ω : Type} {i : Interpretation H ε σ ω} {f g : P → H}
  {k : LineOffset} {said : String → String → Prop} {R : List P → σ → σ → Prop}

/-! ## Interpretations of two parses -/

/-- Two answers to a request: both grant it, or both refuse it. -/
inductive Answers (i : Interpretation H ε σ ω) (said : String → String → Prop) {A B : Type}
    (granted : A → B → σ → σ → Prop) (refused : σ → σ → Prop) :
    Except ε A × σ → Except ε B × σ → Prop where
  | ok {a : A} {b : B} {s t : σ} (h : granted a b s t) :
      Answers i said granted refused (.ok a, s) (.ok b, t)
  | error {x y : ε} {s t : σ} (hsaid : said (i.message x) (i.message y)) (h : refused s t) :
      Answers i said granted refused (.error x, s) (.error y, t)

/-- The interpretation grants the same to two parses, one of which counts lines from `k` lines
further down. The objects that are in use are the parts `f` and `g` of some pairs, and what holds of
these and of what is remembered in the two parses is `R`. -/
structure Interpretation.Paired (i : Interpretation H ε σ ω) (f g : P → H) (k : Int)
    (said : String → String → Prop) (R : List P → σ → σ → Prop) : Prop where
  perm {ps qs : List P} {s t : σ} (hperm : ps.Perm qs) (h : R ps s t) : R qs s t
  construct (c : Construction P) {ps : List P} {s t : σ} (h : R (c.handles ++ ps) s t) :
    Answers i said (fun a b s t ↦ ∃ p, a = f p ∧ b = g p ∧ R (p :: ps) s t) (R ps)
      (i.construct (c.map f) s) (i.construct ((c.map g).relocate (Provenance.offset k)) t)
  declare (d : Declaration) {ps : List P} {s t : σ} (h : R ps s t) :
    Answers i said (fun _ _ ↦ R ps) (R ps) (i.declare d s)
      (i.declare (d.relocate (Provenance.offset k)) t)
  report {d d' : Diagnostic} {ps : List P} {s t : σ} (hd : d.Offset k said d') (h : R ps s t) :
    R ps (i.report d s) (i.report d' t)
  release {p : P} {ps : List P} {s t : σ} (h : R (p :: ps) s t) :
    R ps (i.release (f p) s) (i.release (g p) t)

/-- What is remembered in two parses, with the messages so far. -/
structure Session.Paired (k : Int) (said : String → String → Prop) (R : List P → σ → σ → Prop)
    (ps : List P) (s t : Session σ) : Prop where
  state : R ps s.state t.state
  diagnostics : List.Forall₂ (Diagnostic.Offset k said) s.diagnostics.toList t.diagnostics.toList

namespace Session.Paired

variable {ps qs : List P} {s t : Session σ}

theorem report (hi : i.Paired f g k said R) (h : Session.Paired k said R ps s t) {d d' : Diagnostic}
    (hd : d.Offset k said d') : Session.Paired k said R ps (s.report i d) (t.report i d') := by
  refine ⟨hi.report hd h.state, ?_⟩
  simp only [Session.report, Array.toList_push]
  exact List.rel_append h.diagnostics (.cons hd .nil)

theorem releaseAll (hi : i.Paired f g k said R) (h : Session.Paired k said R (ps ++ qs) s t) :
    Session.Paired k said R qs (s.releaseAll i (ps.map f)) (t.releaseAll i (ps.map g)) := by
  refine ⟨?_, h.diagnostics⟩
  obtain ⟨hstate, -⟩ := h
  change R qs ((ps.map f).foldl _ s.state) ((ps.map g).foldl _ t.state)
  generalize s.state = m at hstate ⊢
  generalize t.state = m' at hstate ⊢
  induction ps generalizing m m' with
  | nil => exact hstate
  | cons p ps ih => exact ih _ _ (hi.release hstate)

end Session.Paired

/-- What holds of two sessions and of the pairs of values that are in use. -/
def Session.PairedOn (k : Int) (said : String → String → Prop) (R : List P → σ → σ → Prop)
    (zs : List (Value P)) : Session σ → Session σ → Prop :=
  Session.Paired k said R (zs.flatMap Value.handles)

section Plans

variable {s t : Session σ} {zs : List (Value P)}

theorem perform_construct (i : Interpretation H ε σ ω) (origin : Provenance) (s : Session σ)
    (c : Construction H) :
    s.perform i origin (.construct c) = (Session.outcome i Value.handle (i.construct c s.state).1,
      { s with state := (i.construct c s.state).2 }) :=
  rfl

theorem perform_declare (i : Interpretation H ε σ ω) (origin : Provenance) (s : Session σ)
    (d : Declaration) :
    s.perform i origin (.declare d) = (Session.outcome i (fun _ ↦ Value.nothing)
      (i.declare d s.state).1, { s with state := (i.declare d s.state).2 }) :=
  rfl

/-- A plan is carried out in both parses. -/
theorem paired_perform (hi : i.Paired f g k said R) (origin : Provenance) (plan : Plan P)
    (h : Session.Paired k said R (plan.handles ++ zs.flatMap Value.handles) s t) :
    Verdict.Paired (Value.map f) (Value.map g) k said (Session.PairedOn k said R) zs
      (s.perform i origin (plan.map f))
      (t.perform i (origin.offset k) ((plan.map g).relocate (Provenance.offset k))) := by
  cases plan with
  | keep v => exact .value v h
  | warn message v => exact .value v (h.report hi (.plain _ _ _ _ ⟨by decide, by decide⟩))
  | construct c =>
    have hanswers := hi.construct c h.state
    rw [Plan.map, Plan.map, Plan.relocate, perform_construct, perform_construct]
    generalize i.construct (c.map f) s.state = x at hanswers ⊢
    generalize i.construct ((c.map g).relocate _) t.state = y at hanswers ⊢
    cases hanswers with
    | ok h' =>
      obtain ⟨p, rfl, rfl, h'⟩ := h'
      refine .value (Value.handle p) ?_
      exact ⟨h', h.diagnostics⟩
    | error hsaid h' =>
      refine .rejected hsaid ?_
      exact ⟨h', h.diagnostics⟩
  | measure c tolerance? =>
    have hstate : R (c.handles ++ (tolerance?.toList ++ zs.flatMap Value.handles)) s.state
        t.state := by
      rw [← List.append_assoc]
      exact h.state
    have hanswers := hi.construct c hstate
    obtain ⟨x, hx⟩ : ∃ x, i.construct (c.map f) s.state = x := ⟨_, rfl⟩
    obtain ⟨y, hy⟩ : ∃ y, i.construct ((c.map g).relocate (Provenance.offset k)) t.state = y :=
      ⟨_, rfl⟩
    rw [hx, hy] at hanswers
    dsimp only [Plan.map, Plan.relocate]
    cases hanswers with
    | ok h' =>
      obtain ⟨p, rfl, rfl, h'⟩ := h'
      rw [perform_measure_ok i hx, perform_measure_ok i hy]
      exact Verdict.Paired.value (Value.pair p tolerance?) ⟨h', h.diagnostics⟩
    | error hsaid h' =>
      have hreleased := Session.Paired.releaseAll (s := { s with state := _ })
        (t := { t with state := _ }) hi ⟨h', h.diagnostics⟩
      rw [perform_measure_error i hx, perform_measure_error i hy, Option.toList_map,
        Option.toList_map]
      exact .rejected hsaid hreleased
  | declare d =>
    have hanswers := hi.declare d h.state
    rw [Plan.map, Plan.map, Plan.relocate, perform_declare, perform_declare]
    generalize i.declare d s.state = x at hanswers ⊢
    generalize i.declare (d.relocate _) t.state = y at hanswers ⊢
    cases hanswers with
    | ok h' =>
      refine .value Value.nothing ?_
      exact ⟨h', h.diagnostics⟩
    | error hsaid h' =>
      refine .rejected hsaid ?_
      exact ⟨h', h.diagnostics⟩

end Plans

/-- What is made of a completed rule is the same in both parses. -/
theorem paired_reducer (hi : i.Paired f g k said R) (file : String) :
    (reducer i ⟨file, 0⟩).Paired (reducer i ⟨file, k⟩) (Value.map f) (Value.map g) k said
      (Session.PairedOn k said R) where
  perm hperm h := ⟨hi.perm (hperm.flatMap_right _) h.state, h.diagnostics⟩
  blank := ⟨.nothing, rfl, rfl, fun _ _ _ h ↦ h⟩
  ofToken t _ _ _ h := by
    refine ⟨Value.ofToken t, Value.map_ofToken f t, Value.map_ofToken g t, ?_⟩
    have hnone : (Value.ofToken t : Value P).handles = [] := by
      unfold Value.ofToken
      cases t.payload <;> rfl
    unfold Session.PairedOn
    rw [List.flatMap_cons, hnone]
    exact h
  report hd h := Session.Paired.report hi h hd
  release {z zs s t} h := by
    have hreleased := Session.Paired.releaseAll hi h
    rw [← Value.handles_map, ← Value.handles_map] at hreleased
    exact hreleased
  reduce p red s t hspan h := by
    have horigin := Context.provenance_offset file k hspan
    have hleft := maps_plan f p ((⟨file, 0⟩ : Context).provenance red.span) (txnFlag? p red.below)
      { pending := red.values }
    have hright := maps_plan_relocate g (Provenance.offset k) p
      ((⟨file, 0⟩ : Context).provenance red.span) (txnFlag? p red.below) { pending := red.values }
    have hhandles : ∀ (f : P → H) (vs : List (Value P)),
        (vs.map (Value.map f)).flatMap Value.handles = (vs.flatMap Value.handles).map f :=
      fun f ↦ flatMap_handles_map f (Value.handles_map f)
    rw [← horigin] at hright
    rw [Args.map, List.map_nil] at hleft hright
    unfold Session.PairedOn at h
    rw [List.flatMap_append] at h
    unfold reducer
    dsimp only [Reduction.map]
    rw [txnFlag?_map, txnFlag?_map, hleft, hright]
    cases hplan : (p.plan ((⟨file, 0⟩ : Context).provenance red.span) (txnFlag? p red.below)).run
        { pending := red.values } with
    | error misfit =>
      dsimp only [Except.map]
      rw [hhandles, hhandles]
      exact .fatal _ (h.releaseAll hi)
    | ok out =>
      obtain ⟨plan, args⟩ := out
      obtain ⟨hperm, -⟩ := passes_plan p _ _ _ _ _ hplan
      dsimp only [Except.map, Args.map]
      rw [← List.map_append, ← List.map_append, hhandles, hhandles, horigin]
      have hvalues : (red.values.flatMap Value.handles).Perm (args.handles ++ plan.handles) :=
        hperm.symm.trans List.perm_append_comm
      refine paired_perform hi _ plan (Session.Paired.releaseAll hi ⟨hi.perm ?_ h.state,
        h.diagnostics⟩)
      rw [← List.append_assoc]
      exact hvalues.append_right _

/-! ## Parses -/

/-- How two parses come out: what holds of the pairs that are in use and of what is remembered holds
when the entries are handed over, or when the text has been given up. -/
inductive Parsed.Paired (i : Interpretation H ε σ ω) (f g : P → H) (k : Int)
    (said : String → String → Prop) (R : List P → σ → σ → Prop) :
    Parsed ω × σ → Parsed ω × σ → Prop where
  | complete {ps : List P} {s t : σ} {ds ds' : List Diagnostic} (h : R ps s t)
      (hds : List.Forall₂ (Diagnostic.Offset k said) ds ds') :
      Paired i f g k said R
        (.complete (i.finish (ps.map f) s).1 ds, (i.finish (ps.map f) s).2)
        (.complete (i.finish (ps.map g) t).1 ds', (i.finish (ps.map g) t).2)
  | failed {s t : σ} {ds ds' : List Diagnostic} (cause : Abort) (h : R [] s t)
      (hds : List.Forall₂ (Diagnostic.Offset k said) ds ds') :
      Paired i f g k said R (.failed cause ds, s) (.failed (cause.offset k) ds', t)

/-- What a parse accepts is a list of entries, whatever the tokens carry. -/
theorem list_of_accepted {ctx : Context} {options : Options} {tokens : List Token} {state : σ}
    {v : Value H} (h : (run i ctx options tokens state).1 = .accepted v) :
    ∃ entries, v = .list entries := by
  have hrun := Engine.run_map (maps_reducer (maps_watched i) ctx) (engine ctx options)
    (stepBudget tokens.length) tokens ⟨(state, []), #[]⟩
  have hout : (run i ctx options tokens state).1 =
      (run i.watched ctx options tokens (state, [])).1.map (Value.map id) := congrArg Prod.fst hrun
  rw [hout] at h
  cases hwatched : run i.watched ctx options tokens (state, []) with
  | mk out c =>
    rw [hwatched] at h
    cases out with
    | accepted w =>
      obtain ⟨entries, rfl, -⟩ := made_of_run hwatched
      cases h
      exact ⟨_, rfl⟩
    | aborted | unfinished => cases h

/-- An interpretation that grants the same to two parses sees the same of both, up to lines. -/
theorem paired_parse (hi : i.Paired f g k said R) (file : String) (options : Options)
    {tokens : List Token} (htokens : ∀ t ∈ tokens, t.span.LinesFit) {state : σ}
    (hstate : R [] state state) :
    List.Forall₂ (Event.Offset k said) (run i ⟨file, 0⟩ options tokens state).2.log.toList
        (run i ⟨file, k⟩ options tokens state).2.log.toList ∧
      Parsed.Paired i f g k said R (parse i ⟨file, 0⟩ options tokens state)
        (parse i ⟨file, k⟩ options tokens state) := by
  obtain ⟨hout, hlog⟩ := paired_run (engine ⟨file, 0⟩ options) (paired_reducer hi file)
    (stepBudget tokens.length) htokens
    (⟨hstate, .nil⟩ : Session.PairedOn k said R [] ⟨state, #[]⟩ ⟨state, #[]⟩)
  have hlist := @list_of_accepted _ _ _ _ i ⟨file, 0⟩ options tokens state
  have hfinished := run_ne_unfinished i ⟨file, 0⟩ options tokens state
  refine ⟨hlog, ?_⟩
  change Outcome.Paired _ _ k _ (run i ⟨file, 0⟩ options tokens state)
    (run i ⟨file, k⟩ options tokens state) at hout
  unfold parse
  generalize run i ⟨file, 0⟩ options tokens state = x at hout hlist hfinished ⊢
  generalize run i ⟨file, k⟩ options tokens state = y at hout ⊢
  obtain ⟨out, c⟩ := x
  obtain ⟨out', d⟩ := y
  cases out with
  | unfinished => exact (hfinished rfl).elim
  | aborted cause =>
    cases out' with
    | aborted cause' =>
      obtain ⟨rfl, h⟩ := hout
      exact .failed cause h.state h.diagnostics
    | _ => exact hout.elim
  | accepted v =>
    cases out' with
    | accepted w =>
      obtain ⟨z, rfl, rfl, h⟩ := hout
      obtain ⟨entries, hz⟩ := hlist rfl
      cases z with
      | list ps =>
        have hstate := h.state
        rw [List.flatMap_singleton] at hstate
        exact .complete hstate h.diagnostics
      | _ => cases hz
    | _ => exact hout.elim

/-! ## Calls -/

def Numbered.map (f : P → H) (x : Numbered P) : Numbered H := ⟨x.number, f x.object⟩

/-- Two calls that are the same up to lines. Objects are the same if they have the same number. -/
inductive Exchange.Offset (word : ε → String) (k : Int) (said : String → String → Prop) :
    Exchange (Numbered H) ε → Exchange (Numbered H) ε → Prop where
  | made {c c' : Construction (Numbered H)} {x x' : Numbered H}
      (hc : c'.map Numbered.number = (c.map Numbered.number).relocate (Provenance.offset k))
      (hx : x'.number = x.number) :
      Offset word k said (.construct c (.ok x)) (.construct c' (.ok x'))
  | refused {c c' : Construction (Numbered H)} {reason reason' : ε}
      (hc : c'.map Numbered.number = (c.map Numbered.number).relocate (Provenance.offset k))
      (hsaid : said (word reason) (word reason')) :
      Offset word k said (.construct c (.error reason)) (.construct c' (.error reason'))
  | declared (d : Declaration) :
      Offset word k said (.declare d (.ok ()))
        (.declare (d.relocate (Provenance.offset k)) (.ok ()))
  | forbidden (d : Declaration) {reason reason' : ε} (hsaid : said (word reason) (word reason')) :
      Offset word k said (.declare d (.error reason))
        (.declare (d.relocate (Provenance.offset k)) (.error reason'))
  | report {d d' : Diagnostic} (hd : d.Offset k said d') :
      Offset word k said (.report d) (.report d')
  | finish {hs hs' : List (Numbered H)} (h : numbers hs' = numbers hs) :
      Offset word k said (.finish hs) (.finish hs')

/-- What holds when the calls have been written down: they are the same up to lines. -/
structure Recorded (i : Interpretation H ε σ ω) (k : Int) (said : String → String → Prop)
    (R : List P → σ → σ → Prop) (ps : List (Numbered P))
    (s t : Numbering σ × List (Exchange (Numbered H) ε)) : Prop where
  objects : R (ps.map Numbered.object) s.1.state t.1.state
  next : t.1.next = s.1.next
  calls : List.Forall₂ (Exchange.Offset i.message k said) s.2 t.2

theorem map_number_map (f : P → H) (c : Construction (Numbered P)) :
    (c.map (Numbered.map f)).map Numbered.number = c.map Numbered.number :=
  c.map_map ..

theorem map_object_map (f : P → H) (c : Construction (Numbered P)) :
    (c.map (Numbered.map f)).map Numbered.object = (c.map Numbered.object).map f :=
  (c.map_map _ _).trans (Construction.map_map Numbered.object f c).symm

section Recording

variable {s : Numbering σ × List (Exchange (Numbered H) ε)} {c : Construction (Numbered H)} {m : σ}

theorem construct_recorded_ok {a : H}
    (h : i.construct (c.map Numbered.object) s.1.state = (.ok a, m)) :
    i.numbered.watched.construct c s = (.ok ⟨s.1.next, a⟩,
      ({ s.1.moveInto c m with next := s.1.next + 1 }.pass (.made s.1.next),
        s.2 ++ [.construct c (.ok ⟨s.1.next, a⟩)])) := by
  simp only [Interpretation.watched, construct_numbered_ok h]

theorem construct_recorded_error {reason : ε}
    (h : i.construct (c.map Numbered.object) s.1.state = (.error reason, m)) :
    i.numbered.watched.construct c s = (.error reason,
      (s.1.moveInto c m, s.2 ++ [.construct c (.error reason)])) := by
  simp only [Interpretation.watched, construct_numbered_error h]

theorem declare_recorded {d : Declaration} {answer : Except ε Unit}
    (h : i.declare d s.1.state = (answer, m)) :
    i.numbered.watched.declare d s =
      (answer, ({ s.1 with state := m }, s.2 ++ [.declare d answer])) := by
  simp only [Interpretation.watched, Interpretation.numbered, h]

end Recording

/-- Numbering objects and writing down calls does not change what is granted. -/
theorem Interpretation.Paired.recorded (hi : i.Paired f g k said R) :
    i.numbered.watched.Paired (Numbered.map f) (Numbered.map g) k said (Recorded i k said R) where
  perm hperm h := ⟨hi.perm (hperm.map _) h.objects, h.next, h.calls⟩
  report hd h := ⟨hi.report hd h.objects, h.next, List.rel_append h.calls (.cons (.report hd) .nil)⟩
  release h := ⟨hi.release h.objects, h.next, h.calls⟩
  declare d ps s t h := by
    have hanswers := hi.declare d h.objects
    obtain ⟨x, hx⟩ : ∃ x, i.declare d s.1.state = x := ⟨_, rfl⟩
    obtain ⟨y, hy⟩ : ∃ y, i.declare (d.relocate (Provenance.offset k)) t.1.state = y := ⟨_, rfl⟩
    rw [hx, hy] at hanswers
    cases hanswers with
    | ok h' =>
      rw [declare_recorded hx, declare_recorded hy]
      exact .ok ⟨h', h.next, List.rel_append h.calls (.cons (.declared d) .nil)⟩
    | error hsaid h' =>
      rw [declare_recorded hx, declare_recorded hy]
      exact .error hsaid ⟨h', h.next, List.rel_append h.calls (.cons (.forbidden d hsaid) .nil)⟩
  construct c ps s t h := by
    have hobjects : R ((c.map Numbered.object).handles ++ ps.map Numbered.object) s.1.state
        t.1.state := by
      rw [Construction.handles_map, ← List.map_append]
      exact h.objects
    have hanswers := hi.construct (c.map Numbered.object) hobjects
    have hnumbers : ((c.map (Numbered.map g)).relocate (Provenance.offset k)).map Numbered.number =
        ((c.map (Numbered.map f)).map Numbered.number).relocate (Provenance.offset k) := by
      rw [Construction.map_relocate, map_number_map, map_number_map]
    rw [← map_object_map, ← map_object_map, ← Construction.map_relocate] at hanswers
    obtain ⟨x, hx⟩ : ∃ x,
        i.construct ((c.map (Numbered.map f)).map Numbered.object) s.1.state = x :=
      ⟨_, rfl⟩
    obtain ⟨y, hy⟩ : ∃ y, i.construct (((c.map (Numbered.map g)).relocate
      (Provenance.offset k)).map Numbered.object) t.1.state = y := ⟨_, rfl⟩
    rw [hx, hy] at hanswers
    cases hanswers with
    | ok h' =>
      obtain ⟨p, rfl, rfl, h'⟩ := h'
      rw [construct_recorded_ok hx, construct_recorded_ok hy, h.next]
      refine .ok ⟨⟨s.1.next, p⟩, rfl, rfl, h', rfl, ?_⟩
      exact List.rel_append h.calls (.cons (.made hnumbers rfl) .nil)
    | error hsaid h' =>
      rw [construct_recorded_error hx, construct_recorded_error hy]
      refine .error hsaid ⟨h', h.next, ?_⟩
      exact List.rel_append h.calls (.cons (.refused hnumbers hsaid) .nil)

/-! ## Two parses -/

theorem Interpretation.Impartial.paired {state : σ} (hi : i.Impartial said state) (k : Int) :
    i.Paired Prod.fst Prod.snd k said (i.Courses state) where
  perm hperm h := h.perm hperm
  report _ h := h.report _ _
  release h := h.release
  construct c ps s t h := by
    have hmove : ∀ origin, (Provenance.offset k origin).file = origin.file := fun _ ↦ rfl
    have halike := hi.construct hmove h
    rcases hleft : i.construct (c.map Prod.fst) s with ⟨a | a, s'⟩ <;>
      rcases hright : i.construct ((c.map Prod.snd).relocate (Provenance.offset k)) t with
        ⟨b | b, t'⟩ <;> rw [hleft, hright] at halike
    · exact .error halike (.refused hmove h hleft hright)
    · exact halike.elim
    · exact halike.elim
    · exact .ok ⟨(a, b), rfl, rfl, .made hmove h hleft hright⟩
  declare d ps s t h := by
    have hmove : ∀ origin, (Provenance.offset k origin).file = origin.file := fun _ ↦ rfl
    have halike := hi.declare d hmove h
    rcases hleft : i.declare d s with ⟨a | a, s'⟩ <;>
      rcases hright : i.declare (d.relocate (Provenance.offset k)) t with ⟨b | b, t'⟩ <;>
      rw [hleft, hright] at halike
    · exact .error halike (.declared hmove h hleft hright rfl)
    · exact halike.elim
    · exact halike.elim
    · exact .ok (.declared hmove h hleft hright rfl)

/-- Two parses come out the same, up to lines. -/
inductive Parsed.Offset (k : Int) (said : String → String → Prop) : Parsed ω → Parsed ω → Prop where
  | complete (whole whole' : ω) {ds ds' : List Diagnostic}
      (h : List.Forall₂ (Diagnostic.Offset k said) ds ds') :
      Offset k said (.complete whole ds) (.complete whole' ds')
  | failed (cause : Abort) {ds ds' : List Diagnostic}
      (h : List.Forall₂ (Diagnostic.Offset k said) ds ds') :
      Offset k said (.failed cause ds) (.failed (cause.offset k) ds')

theorem Parsed.Paired.offset {x y : Parsed ω × σ} (h : Parsed.Paired i f g k said R x y) :
    x.1.Offset k said y.1 := by
  cases h with
  | complete _ hds => exact .complete _ _ hds
  | failed cause _ hds => exact .failed cause hds

theorem Parsed.Paired.calls {x y : Parsed ω × Numbering σ × List (Exchange (Numbered H) ε)}
    (h : Parsed.Paired i.numbered.watched (Numbered.map f) (Numbered.map g) k said
      (Recorded i k said R) x y) :
    List.Forall₂ (Exchange.Offset i.message k said) x.2.2 y.2.2 := by
  cases h with
  | failed _ h => exact h.calls
  | @complete ps s t ds ds' h hds =>
    refine List.rel_append h.calls (.cons (.finish ?_) .nil)
    unfold numbers
    rw [List.map_map, List.map_map]
    rfl

/-- Where the lines of a text are counted from changes nothing but lines: under an interpretation
that does not mind them, two parses of the same tokens read, shift, complete and drop the same, make
the same calls and come out the same, with the same diagnostics. A line of the parse that counts
from the beginning is the line `k` further down in the other one, or the nearest line that there
is. -/
theorem offset_parse {state : σ} (hi : i.Impartial said state) (file : String) (k : LineOffset)
    (options : Options) {tokens : List Token} (htokens : ∀ t ∈ tokens, t.span.LinesFit) :
    List.Forall₂ (Event.Offset k said) (run i ⟨file, 0⟩ options tokens state).2.log.toList
        (run i ⟨file, k⟩ options tokens state).2.log.toList ∧
      List.Forall₂ (Exchange.Offset i.message k said)
        (parse i.numbered.watched ⟨file, 0⟩ options tokens ({ state }, [])).2.2
        (parse i.numbered.watched ⟨file, k⟩ options tokens ({ state }, [])).2.2 ∧
      (parse i ⟨file, 0⟩ options tokens state).1.Offset k said
        (parse i ⟨file, k⟩ options tokens state).1 := by
  obtain ⟨hlog, hparsed⟩ := paired_parse (hi.paired k) file options htokens .start
  obtain ⟨-, hrecorded⟩ := paired_parse (hi.paired k).recorded file options htokens
    (⟨.start, rfl, .nil⟩ : Recorded i k said (i.Courses state) [] ({ state }, []) ({ state }, []))
  exact ⟨hlog, hrecorded.calls, hparsed.offset⟩

/-- The date `2024-01-02` on the third line, with nothing after it. -/
def loneDate : List Token := [.ofText .date "2024-01-02" (.point 3 1)]

theorem offset_parse_loneDate :
    (Transcript.interpretation.Impartial Eq {} ∧ ∀ t ∈ loneDate, t.span.LinesFit) ∧
    (List.Forall₂ (Event.Offset 40 Eq)
        (run Transcript.interpretation ⟨"main", 0⟩ { recoveryShifts := 0 } loneDate {}).2.log.toList
        (run Transcript.interpretation ⟨"main", 40⟩
          { recoveryShifts := 0 } loneDate {}).2.log.toList ∧
      List.Forall₂ (Exchange.Offset Transcript.interpretation.message 40 Eq)
        (parse Transcript.interpretation.numbered.watched ⟨"main", 0⟩
          { recoveryShifts := 0 } loneDate
          ({ state := {} }, [])).2.2
        (parse Transcript.interpretation.numbered.watched ⟨"main", 40⟩
          { recoveryShifts := 0 } loneDate
          ({ state := {} }, [])).2.2 ∧
      (parse Transcript.interpretation ⟨"main", 0⟩
        { recoveryShifts := 0 } loneDate {}).1.Offset 40 Eq
        (parse Transcript.interpretation ⟨"main", 40⟩ { recoveryShifts := 0 } loneDate {}).1) ∧
    (parse Transcript.interpretation ⟨"main", 0⟩ { recoveryShifts := 0 } loneDate
        {}).1.diagnostics.getLast?.map Diagnostic.render =
      some "main:3: main:3: unrecoverable syntax error" ∧
    (parse Transcript.interpretation ⟨"main", 40⟩ { recoveryShifts := 0 } loneDate
        {}).1.diagnostics.getLast?.map Diagnostic.render =
      some "main:43: main:43: unrecoverable syntax error" := by
  have hfits : ∀ t ∈ loneDate, t.span.LinesFit :=
    List.forall_mem_singleton.mpr ⟨by decide, by decide⟩
  have himpartial := Transcript.impartial {}
  refine ⟨⟨himpartial, hfits⟩, offset_parse himpartial "main" 40 { recoveryShifts := 0 } hfits, ?_⟩
  unfold parse run engine
  rw [tables_eq]
  decide +kernel

end Language

end PlainLedger
