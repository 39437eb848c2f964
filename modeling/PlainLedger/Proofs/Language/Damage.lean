import PlainLedger.Proofs.Language.Isolation
import PlainLedger.Proofs.Language.WithinLine
import PlainLedger.Proofs.Machine.Tally

/-!
# Damaged lines

A run over a line that stands between other lines is beside the run over the line alone up to the
first error in it. If there is one, the run goes on between declarations with what is left of the
line from the next token that reading is taken up with.
-/

namespace PlainLedger.Language

open Transcript (Refusal)

variable {H : Type}

/-- How many of the diagnostics are errors. -/
def errorCount (ds : List Diagnostic) : Nat := ds.countP Diagnostic.isError

theorem hasErrors_eq_false_iff {ds : List Diagnostic} :
    hasErrors ds = false ↔ errorCount ds = 0 := by
  unfold hasErrors errorCount
  rw [List.any_eq_false, List.countP_eq_zero]

/-- How many errors a session has been told of. -/
abbrev Session.errors {σ : Type} (s : Session σ) : Nat := errorCount s.diagnostics.toList

section Runs

variable {make : Construction H → H} {ctx : Context} {options : Options} {s₀ : Stack (Value H)}
  {log : Array (Event (Value H))} {es hs : List H} {xs : List (Exchange H Refusal)}
  {ds : List Diagnostic} {ts : List Token} {k m n : Nat} {v : Value H}
  {c c' d d' : Config (Value H) (Granted H)}

theorem tallies_granting (make : Construction H → H) (ctx : Context) :
    (granter make ctx).Tallies Session.errors where
  ofToken _ _ := rfl
  report d s := by
    change errorCount (s.diagnostics.push d).toList = _
    unfold errorCount
    rw [Array.toList_push, List.countP_append, List.countP_singleton]
    rfl
  release v s := congrArg Session.errors (releaseAll_granting v.handles s)
  reduce p red s := by
    obtain ⟨ds, hds, hkinds⟩ := (kept_warns s).reduce (Warns.refl s) ctx p red
      (i := (Interpretation.granting make).watched)
    have hmild : ds.countP Diagnostic.isError = 0 := List.countP_eq_zero.mpr fun d hd ↦ by
      rw [Diagnostic.isError, hkinds d hd]
      exact Bool.false_ne_true
    unfold Session.errors errorCount
    rw [hds, List.countP_append, hmild, Nat.add_zero]
  granted p red s message := by
    intro h
    rcases (accepting_granting make).watched.verdict (Prod.ext h rfl) with ⟨v, hv⟩ | ⟨d, hd⟩
    · cases hv
    · cases hd

theorem upcoming_ne_lexError (h : ∀ t ∈ c.pending, t.kind ≠ .lexError) :
    c.upcoming ≠ .lexError := by
  unfold Config.upcoming
  cases hpending : c.pending with
  | nil => exact (by decide : Terminal.endOfInput ≠ .lexError)
  | cons t ts => exact h t (hpending ▸ List.mem_cons_self ..)

/-- As long as tokens are none that are no tokens, a step tells of an error where the next token is
unexpected. -/
theorem counts_step (make : Construction H → H) (ctx : Context) (options : Options)
    {x : Slot (Value H)} {rest : List (Slot (Value H))} {row : Row}
    (hslots : c.stack.slots = x :: rest) (hrow : tables.row? x.state = some row)
    (hlexical : ∀ t ∈ c.pending, t.kind ≠ .lexError) :
    (c.step (engine ctx options) (granter make ctx)).Counts Session.errors
      (c.memory.errors + if row.decide c.upcoming = none ∧ c.quiet = 0 then 1 else 0) :=
  Config.counts_step (e := engine ctx options) (tallies_granting make ctx) hslots hrow
    (upcoming_ne_lexError hlexical)

/-- What every step of a run over lines keeps. -/
structure Sane (options : Options) (s₀ : Stack (Value H)) (c : Config (Value H) (Granted H)) :
    Prop where
  lineal : Lineal c
  poised : Poised options c
  bounded : c.stack.Bounded
  grown : s₀.Grown c.stack
  bottom : c.stack.slots.getLast? = s₀.slots.getLast?
  facing : c.Facing
  lexical : ∀ t ∈ c.pending, t.kind ≠ .lexError

theorem Lineal.exists_row (h : Lineal c) :
    ∃ x rest row, c.stack.slots = x :: rest ∧ tables.row? x.state = some row := by
  obtain ⟨xs, hs⟩ := h.spelled
  obtain ⟨x, rest, hslots⟩ := List.exists_cons_of_ne_nil hs.ne_nil
  obtain ⟨S, hS⟩ := (hslots ▸ hs.path).exists_state
  obtain ⟨row, hrow⟩ := Grammar.exists_row hS
  exact ⟨x, rest, row, hslots, hrow⟩

theorem moves_granter (make : Construction H → H) (ctx : Context) (options : Options)
    (h : Lineal c) : Config.Moves (engine ctx options) (granter make ctx) c
      (c.step (engine ctx options) (granter make ctx)) := by
  obtain ⟨xs, hs⟩ := h.spelled
  exact Config.moves_step tables_engine (fun _ _ ↦ not_edge_end) hs.path

theorem Sane.step (hshifts : 1 ≤ options.recoveryShifts) (h : Sane options s₀ c)
    (hstep : c.step (engine ctx options) (granter make ctx) = .running c') :
    Sane options s₀ c' := by
  have hmoves := moves_granter make ctx options h.lineal
  obtain ⟨x, rest, row, hslots, hrow⟩ := h.lineal.exists_row
  have hbounded := Config.post_step_kept (e := engine ctx options) (r := granter make ctx)
    Stack.kept_bounded h.bounded
  have hgrown := Config.post_step_kept (e := engine ctx options) (r := granter make ctx)
    (Stack.kept_grown s₀) h.grown
  have hfacing := h.facing.step (e := engine ctx options) (r := granter make ctx) hslots hrow
  rw [hstep] at hmoves hbounded hgrown hfacing
  exact ⟨h.lineal.step hstep, poised_of_moves hshifts hmoves h.poised, hbounded, hgrown,
    hmoves.getLast?_slots.trans h.bottom, hfacing,
    fun t ht ↦ h.lexical t (hmoves.pending_suffix.subset ht)⟩

theorem Sane.steps (hshifts : 1 ≤ options.recoveryShifts) (h : Sane options s₀ c)
    (hsteps : (engine ctx options).steps (granter make ctx) k (.running c) = .running c') :
    Sane options s₀ c' := by
  have hpost := (engine ctx options).post_steps (granter make ctx) (P := Sane options s₀)
    (A := fun _ _ ↦ True) (B := fun _ _ ↦ True) (fun c h ↦ by
      cases hstep : c.step (engine ctx options) (granter make ctx) with
      | running c' => exact h.step hshifts hstep
      | accepted v c' => trivial
      | aborted cause c' => trivial) k (s := .running c) h
  rwa [hsteps] at hpost

/-- A look ahead changes nothing of it. -/
theorem Sane.peek (make : Construction H → H) (ctx : Context) (h : Sane options s₀ c) :
    Sane options s₀ (c.peek (engine ctx options) (granter make ctx)).2 := by
  have hstack := c.stack_peek (engine ctx options) (granter make ctx)
  have hpending := c.pending_peek (engine ctx options) (granter make ctx)
  have hquiet := c.quiet_peek (engine ctx options) (granter make ctx)
  obtain ⟨⟨hs, hlast, hrested, hclosed⟩, ⟨hs', hle, hrested', hclosed'⟩, hbounded, hgrown, hbottom,
    hfacing, hlexical⟩ := h
  refine ⟨⟨?_, ?_, ?_, ?_⟩, ⟨?_, ?_, ?_, ?_⟩, ?_, ?_, ?_, hfacing.peek, ?_⟩ <;>
    simpa only [hstack, hpending, hquiet] using ‹_›

theorem Opens.sane (hopens : Opens s₀) (log : Array (Event (Value H))) (hline : IsLine ts)
    (hshifts : 1 ≤ options.recoveryShifts) : Sane options s₀ (opened s₀ log ts) := by
  have hends : ∀ t ∈ ts, t.kind ≠ .endOfInput := hline.ne_of_mem (by decide) (by decide)
  have hlineal : Lineal (opened s₀ log ts) := hopens.lineal log hends fun t ht ↦ by
    rw [EndsLine, hline.kind_getLast? t ht]
    exact List.mem_cons_self ..
  have hpending : (opened s₀ log ts).pending = ts := pending_opened s₀ log hends
  refine ⟨hlineal, ⟨hlineal.spelled, Nat.zero_le _, fun hquiet ↦ ?_, fun x rest hx hclosing ↦ ?_⟩,
    hopens.bounded, .refl s₀, rfl, Or.inr ⟨rfl, ?_, hends⟩, ?_⟩
  · have hquiet : 0 = options.recoveryShifts := hquiet
    omega
  · exact hlineal.closed x (by rw [hx]; rfl) hclosing
  · intro t ht
    cases ht
  · rw [hpending]
    exact hline.ne_of_mem (by decide) (by decide)

/-! ## One line beside itself -/

/-- Once the text has been used up, there is nothing to tell. -/
theorem errors_of_pending_nil (hc : Lineal c) (hpending : c.pending = [])
    (hsteps : (engine ctx options).steps (granter make ctx) k (.running c) = .running c') :
    c'.memory.errors = c.memory.errors := by
  induction k generalizing c with
  | zero =>
    cases hsteps
    rfl
  | succ k ih =>
    obtain ⟨x, rest, row, hslots, hrow⟩ := hc.exists_row
    have hdecide := hc.decide_ne_none hslots hrow hpending
    rw [← Config.upcoming_eq_endOfInput_iff.mpr hpending] at hdecide
    have hcounts := counts_step make ctx options hslots hrow fun t ht ↦ by
      rw [hpending] at ht
      cases ht
    have hmoves := moves_granter make ctx options hc
    rw [if_neg fun h ↦ hdecide h.1, Nat.add_zero] at hcounts
    rw [Engine.steps_succ_running] at hsteps
    cases hstep : c.step (engine ctx options) (granter make ctx) with
    | running c₁ =>
      rw [hstep] at hsteps hcounts hmoves
      rw [ih (hc.step hstep) (List.eq_nil_of_suffix_nil (hpending ▸ hmoves.pending_suffix)) hsteps]
      exact hcounts
    | accepted v c₁ =>
      rw [hstep, Engine.steps_accepted] at hsteps
      cases hsteps
    | aborted cause c₁ =>
      rw [hstep, Engine.steps_aborted] at hsteps
      cases hsteps

/-- Beside a run over the line alone, a run comes to the same error within it as the other one, or
the line is read to its end without error, and then no declaration can begin within it. -/
theorem Within.beside (hline : IsLine ts)
    (hn : Finishes (engine ctx options) (granter make ctx) n c) (hc : Lineal c)
    (hlexical : ∀ t ∈ c.pending, t.kind ≠ .lexError)
    (h : Attends (Extends es) (Session.Follows xs ds []) False s₀ [] c d) (hd : Lineal d)
    (hwithin : Within s₀ es ts d)
    (hm : (engine ctx options).steps (granter make ctx) m (.running d) = .accepted v d') :
    (∃ k c₁ d₁, (engine ctx options).steps (granter make ctx) k (.running c) = .running c₁ ∧
        (engine ctx options).steps (granter make ctx) k (.running d) = .running d₁ ∧
        Within s₀ es ts d₁ ∧ c₁.Errs (engine ctx options) ∧ d₁.Errs (engine ctx options) ∧
        d₁.memory.errors = d.memory.errors) ∨
      (∀ t ∈ ts.tail, t.kind ∉ headKinds) ∧
        ∃ k hs c₁, (engine ctx options).steps (granter make ctx) k (.running c) =
          .accepted (.list hs) c₁ ∧ c₁.memory.errors = c.memory.errors := by
  induction n generalizing c d with
  | zero => exact (hn c rfl).elim
  | succ n ih =>
    obtain ⟨xs', hs⟩ := hc.spelled
    obtain ⟨xs'', hs'⟩ := hd.spelled
    have hpendings : d.pending = c.pending := h.2.pending_of_nil
    have hpending : c.pending ≠ [] := hpendings ▸ (hwithin.isLine hline).ne_nil
    obtain ⟨z, rest, z', rest', row, hslots, hslots', hstate, hrow⟩ := Beside.exists_top h.1 hs
    have hup : d.upcoming = c.upcoming := by
      unfold Config.upcoming
      rw [hpendings]
    have hrow' : tables.row? z'.state = some row := hstate ▸ hrow
    cases hdecide : row.decide c.upcoming with
    | none =>
      refine Or.inl ⟨0, c, d, rfl, rfl, hwithin, ?_, ?_, rfl⟩
      · exact (Config.errs_iff (e := engine ctx options) hslots hrow).mpr hdecide
      · exact (Config.errs_iff (e := engine ctx options) hslots' hrow').mpr (hup ▸ hdecide)
    | some action =>
      have hmoves := moves_granter make ctx options hd
      have halong := Attends.step_of_decide (Q := True) make ctx options h hs hpending hslots hrow
        hdecide
      have hcounts := counts_step make ctx options hslots hrow hlexical
      have hcounts' := counts_step make ctx options hslots' hrow' (hpendings ▸ hlexical)
      have hexpected : ¬d.Errs (engine ctx options) := fun herrs ↦ by
        have hnone := (Config.errs_iff (e := engine ctx options) hslots' hrow').mp herrs
        rw [hup, hdecide] at hnone
        cases hnone
      rw [hdecide, if_neg (fun h ↦ nomatch h.1), Nat.add_zero] at hcounts
      rw [hup, hdecide, if_neg (fun h ↦ nomatch h.1), Nat.add_zero] at hcounts'
      generalize hstep : c.step (engine ctx options) (granter make ctx) = s at halong hcounts
      generalize hstep' : d.step (engine ctx options) (granter make ctx) = s'
        at halong hcounts' hmoves
      cases halong with
      | @running c₁ d₁ h₁ =>
        have hlineal₁ : Lineal c₁ := hc.step hstep
        have hlineal₁' : Lineal d₁ := hd.step hstep'
        have herrors : c₁.memory.errors = c.memory.errors := hcounts
        have herrors' : d₁.memory.errors = d.memory.errors := hcounts'
        have hone : (engine ctx options).steps (granter make ctx) 1 (.running c) = .running c₁ :=
          (Engine.steps_one _ _ c).trans hstep
        have hone' : (engine ctx options).steps (granter make ctx) 1 (.running d) = .running d₁ :=
          (Engine.steps_one _ _ d).trans hstep'
        have hn₁ : Finishes (engine ctx options) (granter make ctx) n c₁ := by
          intro c₂ hc₂
          refine hn c₂ ?_
          rw [Engine.steps_succ_running, hstep, hc₂]
        rcases hwithin.moves hline (accepting_granting make).watched hs' hmoves hexpected with
          hwithin₁ | ⟨hnil, hheads⟩
        · have hlexical₁ : ∀ t ∈ c₁.pending, t.kind ≠ .lexError := by
            have hmoves₁ := moves_granter make ctx options hc
            rw [hstep] at hmoves₁
            exact fun t ht ↦ hlexical t (hmoves₁.pending_suffix.subset ht)
          rcases ih hn₁ hlineal₁ hlexical₁ h₁ hlineal₁' hwithin₁
            (Engine.accepted_of_running hone' hm)
            with ⟨k, c₂, d₂, hk, hk', hwithin₂, herrs, herrs', herrors₂⟩ |
              ⟨hheads, k, hs, c₂, hk, herrors₂⟩
          · refine Or.inl ⟨k + 1, c₂, d₂, ?_, ?_, hwithin₂, herrs, herrs', herrors₂.trans herrors'⟩
            · rw [Engine.steps_succ_running, hstep, hk]
            · rw [Engine.steps_succ_running, hstep', hk']
          · refine Or.inr ⟨hheads, k + 1, hs, c₂, ?_, herrors₂.trans herrors⟩
            rw [Engine.steps_succ_running, hstep, hk]
        · -- the whole line has been read
          have hnil' : c₁.pending = [] := h₁.2.pending_of_nil.symm.trans hnil
          obtain ⟨hbeside, hbefore⟩ := h₁
          obtain ⟨hahead, hinput⟩ := List.append_eq_nil_iff.mp (hbefore.pending_eq.symm.trans hnil')
          have husedUp : UsedUp make ctx options es xs ds False s₀ [] c₁ d₁ := by
            refine ⟨hlineal₁, hnil', ⟨n, hn₁⟩, [], .unread ?_ ?_ hbefore.exhausted.2, hbeside⟩
            · exact hbefore.ahead.trans (Option.toList_eq_nil_iff.mp hahead)
            · rw [hbefore.input, hinput, List.append_nil]
          have hboth := husedUp.exists_arrives (Q := True) nofun nofun
          cases hboth with
          | @arrive k c₂ d₂ hk hk' h₂ =>
            obtain ⟨hs, harrives⟩ := h₂
            obtain ⟨⟨j, c₃, haccepted, hmemory⟩, -⟩ := harrives.reached
            refine Or.inr ⟨hheads, 1 + (k + j), hs, c₃, ?_, ?_⟩
            · rw [Engine.steps_add, hone, Engine.steps_add, hk, haccepted]
            · rw [hmemory, errors_of_pending_nil hlineal₁ hnil' hk, herrors]
          | aborted k hk hk' =>
            exact (Engine.not_aborted_of_accepted (Engine.accepted_of_running hone' hm) hk').elim
          | apart k hQ _ => exact (hQ trivial).elim
      | aborted cause c₁ d₁ =>
        exact (Engine.not_aborted_of_accepted hm ((Engine.steps_one _ _ d).trans hstep')).elim
      | apart hQ _ => exact (hQ trivial).elim

/-! ## After an error within a line -/

/-- Where the machine goes on after an error, it is between declarations. -/
theorem Rests.reached (h : Rests options es d) (hsane : Sane options s₀ d)
    (hpending : d.pending ≠ []) :
    Reached ctx options s₀ es d.memory.requests d.memory.diagnostics.toList d.pending d := by
  obtain ⟨⟨y, b, hslots, hy, hvalue, -⟩, -, -⟩ := h
  obtain ⟨hexhausted, hspan, heq⟩ := hsane.facing.pending_eq hpending
  refine ⟨⟨y, b, hslots, hy, hvalue, ?_⟩, hsane.grown, rfl, [], ?_, (List.append_nil _).symm⟩
  · rw [← hsane.bottom, hslots]
    rfl
  · cases hahead : d.ahead? with
    | none =>
      rw [hahead] at heq
      exact .unread hahead heq.symm hexhausted
    | some t =>
      rw [hahead] at heq
      have ht : t.kind ≠ .lexError := hsane.lexical t (heq ▸ List.mem_cons_self ..)
      have hread := AtHead.read (e := engine ctx options) heq hahead rfl hexhausted
        (hspan t hahead).symm
      rwa [lexical, if_neg ht] at hread

/-- An error is found before the last token of a line, if it is found within the line. -/
theorem Within.isLine_later (h : Within s₀ es ts c) (hline : IsLine ts)
    (herrs : c.Errs (engine ctx options)) : IsLine (later ts) := by
  cases h with
  | before h hpending =>
    obtain ⟨ds, b, hslots, hds, -⟩ := h
    obtain ⟨row, hrow, -⟩ := exists_row_between
    have hout := (decide_between_eq_none_iff hrow _).mp
      ((Config.errs_iff (e := engine ctx options) hslots (hds ▸ hrow)).mp herrs)
    unfold Config.upcoming at hout
    rw [hpending] at hout
    cases hline with
    | last h =>
      refine (hout ?_).elim
      rw [List.head?_cons, Option.map_some, Option.getD_some, h]
      decide
    | cons _ hus => exact hus.dropWhile
  | inside _ _ _ hline' hlater => exact hlater ▸ hline'.dropWhile

/-- The text is read without error, and comes to these entries. -/
def Understood (make : Construction H → H) (ctx : Context) (options : Options) (ts : List Token)
    (hs : List H) : Prop :=
  ∃ xs ds, Reads make ctx options ts hs xs ds ∧ hasErrors ds = false

theorem Reached.errors (h : Reached ctx options s₀ es xs ds ts d)
    (hlexical : ∀ t ∈ ts, t.kind ≠ .lexError) : d.memory.errors = errorCount ds := by
  obtain ⟨ws, hhead, hds⟩ := h.ahead
  suffices hws : ws = [] by
    unfold Session.errors
    rw [hds, hws, List.append_nil]
  cases hhead with
  | unread => rfl
  | read hmore => exact if_neg (hlexical _ (hmore ▸ List.mem_cons_self ..))
  | ended => rfl

/-- Where an error is found, the machine goes on after it. -/
theorem recoveries_of_errs (make : Construction H → H) (ctx : Context) (options : Options)
    (hc : Lineal c) (herrs : c.Errs (engine ctx options)) :
    (c.step (engine ctx options) (granter make ctx)).Post (fun c' ↦ 0 < c'.recoveries)
      (fun _ _ ↦ False) fun _ _ ↦ True := by
  obtain ⟨x, rest, row, hslots, hrow⟩ := hc.exists_row
  have hdecide := (Config.errs_iff (e := engine ctx options) hslots hrow).mp herrs
  rw [Config.step_eq (engine ctx options) _ hslots hrow, Config.kind_peek, hdecide]
  exact Config.post_fail_recoveries _ _

/-- The run goes on after an error within the line, where the next declaration may begin. -/
structure Recovered (ctx : Context) (options : Options) (s₀ : Stack (Value H)) (es : List H)
    (ts : List Token) (n : Nat) (d : Config (Value H) (Granted H)) : Prop where
  reached : ∃ xs ds, Reached ctx options s₀ es xs ds (later ts) d
  sane : Sane options s₀ d
  line : IsLine (later ts)
  errors : d.memory.errors ≤ n + 1

/-- Where an error is found within a line, the run goes on with what is left of the line. -/
theorem Within.exists_recovered (make : Construction H → H) (ctx : Context)
    (hshifts : 1 ≤ options.recoveryShifts) (hline : IsLine ts) (h : Within s₀ es ts d)
    (hsane : Sane options s₀ d) (herrs : d.Errs (engine ctx options))
    (hm : (engine ctx options).steps (granter make ctx) m (.running d) = .accepted v d') :
    ∃ k d₁, (engine ctx options).steps (granter make ctx) (k + 1) (.running d) = .running d₁ ∧
      Recovered ctx options s₀ es ts d.memory.errors d₁ := by
  obtain ⟨xs, hs⟩ := hsane.lineal.spelled
  obtain ⟨x, rest, row, hslots, hrow⟩ := hsane.lineal.exists_row
  have hmoves := moves_granter make ctx options hsane.lineal
  have hgoes := recoveries_of_errs make ctx options hsane.lineal herrs
  have hcounts := counts_step make ctx options hslots hrow hsane.lexical
  cases hstep : d.step (engine ctx options) (granter make ctx) with
  | accepted v' d₁ =>
    rw [hstep] at hgoes
    exact hgoes.elim
  | aborted cause d₁ =>
    exact (Engine.not_aborted_of_accepted hm ((Engine.steps_one _ _ d).trans hstep)).elim
  | running d₁ =>
    have hsane₁ : Sane options s₀ d₁ := hsane.step hshifts hstep
    rw [hstep] at hmoves hcounts
    have herrors : d₁.memory.errors ≤ d.memory.errors + 1 := by
      refine (show d₁.memory.errors = _ from hcounts).le.trans (Nat.add_le_add_left ?_ _)
      split
      · exact le_rfl
      · exact Nat.zero_le 1
    obtain ⟨hskips, -, hlater⟩ :=
      h.recovers hs hsane.poised hmoves hsane₁.bounded herrs
    obtain ⟨k, d₂, hk, hrests, -, hpending, -, -, hmemory⟩ :=
      hskips.exists_rests (Interpretation.granting make).watched ctx hshifts
    have hsane₂ : Sane options s₀ d₂ := hsane₁.steps hshifts hk
    have hline₁ : IsLine (later ts) := h.isLine_later hline herrs
    rw [hlater] at hpending
    refine ⟨k, d₂, ?_, ⟨⟨d₂.memory.requests, d₂.memory.diagnostics.toList, ?_⟩, hsane₂, hline₁, ?_⟩⟩
    · rw [Engine.steps_succ_running, hstep, hk]
    · have hreached : Reached ctx options s₀ es _ _ _ d₂ :=
        hrests.reached hsane₂ (hpending ▸ hline₁.ne_nil)
      rwa [hpending] at hreached
    · rwa [hmemory hsane₁.lexical]

/-- A text in which an error is found at some step is not read without error. -/
theorem not_understood_of_errs {j : Nat}
    (hj : (engine ctx options).steps (granter make ctx) j (begin make ctx options ts) =
      c.step (engine ctx options) (granter make ctx)) (hc : Lineal c)
    (herrs : c.Errs (engine ctx options)) (hs : List H) :
    ¬Understood make ctx options ts hs := by
  rintro ⟨xs, ds, ⟨m, c', hm, -, rfl⟩, hclean⟩
  have hgoes := recoveries_of_errs make ctx options hc herrs
  generalize c.step (engine ctx options) (granter make ctx) = s at hgoes hj
  cases s with
  | running c₁ =>
    have hzero := (clean_of_reads hm hclean hj).recoveries_eq
    exact absurd hzero (Nat.pos_iff_ne_zero.mp hgoes)
  | accepted v c₁ => exact hgoes
  | aborted cause c₁ => exact Engine.not_aborted_of_accepted hm hj

/-- A line that is read without error alone adds what it comes to alone, and no error. -/
theorem Reached.understands {hs' : List H} {xs' : List (Exchange H Refusal)}
    {ds' : List Diagnostic} (hopens : Opens s₀)
    (hopened : (engine ctx options).steps (granter make ctx) 1 (begin make ctx options ts) =
      .running (opened s₀ log ts)) (hline : IsLine ts) (h : Reached ctx options s₀ es xs ds ts d)
    (hreads : Reads make ctx options ts hs' xs' ds') (hclean : hasErrors ds' = false)
    (hm : (engine ctx options).steps (granter make ctx) m (.running d) = .accepted (.list hs) d') :
    hs = es ++ hs' ∧ d'.memory.errors = d.memory.errors := by
  have hends := hline.ne_of_mem (k := .endOfInput) (by decide) (by decide)
  rw [← List.append_nil ts] at h hends
  obtain ⟨j, d₁, hj, hreached, -⟩ := hreads.exists_reached hclean hopens hopened h False.elim hends
    (fun u hu ↦ by rw [EndsLine, hline.kind_getLast? u hu]; exact List.mem_cons_self ..) nofun
  obtain ⟨l, d₂, hl, -, hdiagnostics⟩ := hreached.accepts hopens make
  obtain ⟨hvalues, rfl⟩ := Engine.accepted_unique (Engine.accepted_of_running hj hm) hl
  rw [List.append_nil] at h
  refine ⟨Value.list.inj hvalues, ?_⟩
  rw [h.errors (hline.ne_of_mem (by decide) (by decide))]
  unfold Session.errors
  rw [hdiagnostics, errorCount, List.countP_append]
  exact congrArg _ (hasErrors_eq_false_iff.mp hclean)

/-- What becomes of one line between declarations: it is read as it is read alone, and then no
declaration can begin within it, or it cannot be read alone without error, and the run goes on with
what is left of it after the first error. -/
theorem Reached.line (hopens : Opens s₀)
    (hopened : (engine ctx options).steps (granter make ctx) 1 (begin make ctx options ts) =
      .running (opened s₀ log ts))
    (hshifts : 1 ≤ options.recoveryShifts) (hline : IsLine ts)
    (h : Reached ctx options s₀ es xs ds ts d) (hsane : Sane options s₀ d)
    (hm : (engine ctx options).steps (granter make ctx) m (.running d) = .accepted (.list hs) d') :
    (∃ hs', Understood make ctx options ts hs' ∧ hs = es ++ hs' ∧
        d'.memory.errors = d.memory.errors ∧ ∀ t ∈ ts.tail, t.kind ∉ headKinds) ∨
      (∀ hs', ¬Understood make ctx options ts hs') ∧
        ∃ k d₁, (engine ctx options).steps (granter make ctx) k (.running d) = .running d₁ ∧
          Recovered ctx options s₀ es ts d.memory.errors d₁ := by
  obtain ⟨t, us, rfl⟩ := List.exists_cons_of_ne_nil hline.ne_nil
  have hends := hline.ne_of_mem (k := .endOfInput) (by decide) (by decide)
  obtain ⟨x, b, hslots, hx, -⟩ := hopens.slots
  obtain ⟨y, b', hslots', hy, hvalue, hlast⟩ := h.slots
  have hopenedSane : Sane options s₀ (opened s₀ log (t :: us)) := hopens.sane log hline hshifts
  -- both machines look at the first token of the line
  have hattends : Attends (Extends es) (Session.Follows xs ds []) False s₀ []
      ((opened s₀ log (t :: us)).peek (engine ctx options) (granter make ctx)).2
      (d.peek (engine ctx options) (granter make ctx)).2 :=
    Reached.attends make log hopens (by rwa [List.append_nil]) False.elim hends
  have hsane₀ : Sane options s₀ _ := hopenedSane.peek make ctx
  have hsane₁ : Sane options s₀ _ := hsane.peek make ctx
  have hc : ∀ k, (engine ctx options).steps (granter make ctx) (k + 1) _ = _ :=
    fun k ↦ steps_peek_between
      (show (opened s₀ log (t :: us)).stack.slots = [x, b] from hslots) hx k
  have hd : ∀ k, (engine ctx options).steps (granter make ctx) (k + 1) _ = _ :=
    fun k ↦ steps_peek_between hslots' hy k
  have hpending : (d.peek (engine ctx options) (granter make ctx)).2.pending = t :: us := by
    rw [hattends.2.pending_of_nil, Config.pending_peek, pending_opened s₀ log hends]
  have hwithin : Within s₀ es (t :: us) (d.peek (engine ctx options) (granter make ctx)).2 :=
    .before ⟨y, b', (congrArg Stack.slots (d.stack_peek _ _)).trans hslots', hy, hvalue, hlast⟩
      hpending
  have hmemory := (Config.peek_of_ne_lexError (e := engine ctx options) (r := granter make ctx)
    (upcoming_ne_lexError hopenedSane.lexical)).1
  have hmemory' := (Config.peek_of_ne_lexError (e := engine ctx options) (r := granter make ctx)
    (upcoming_ne_lexError hsane.lexical)).1
  obtain ⟨n, hn⟩ := exists_finishes make ctx options hopened
  obtain ⟨n, rfl⟩ : ∃ n', n = n' + 1 := Nat.exists_eq_succ_of_ne_zero fun hzero ↦ by
    subst hzero
    exact hn _ rfl
  obtain ⟨m, rfl⟩ : ∃ m', m = m' + 1 := Nat.exists_eq_succ_of_ne_zero fun hzero ↦ by
    subst hzero
    cases hm
  have hn' : Finishes (engine ctx options) (granter make ctx) (n + 1) _ := fun c' hc' ↦
    hn c' ((hc n).symm.trans hc')
  rcases Within.beside hline hn' hsane₀.lineal hsane₀.lexical hattends hsane₁.lineal hwithin
    ((hd m).trans hm) with ⟨k, c₁, d₁, hk, hk', hwithin₁, herrs, herrs', herrors⟩ |
      ⟨hheads, k, hs', c₁, hk, herrors⟩
  · obtain ⟨k', d₂, hk₂, hrecovered⟩ := hwithin₁.exists_recovered make ctx hshifts hline
      (hsane₁.steps hshifts hk') herrs' (Engine.accepted_of_running hk' ((hd m).trans hm))
    have hafter : (engine ctx options).steps (granter make ctx) (k + k' + 1) (.running d) =
        .running d₂ := by
      rw [← hd, Nat.add_assoc, Engine.steps_add, hk', hk₂]
    rw [herrors, hmemory'] at hrecovered
    refine Or.inr ⟨?_, _, d₂, hafter, hrecovered⟩
    refine not_understood_of_errs (j := 1 + (k + 1)) ?_ (hsane₀.steps hshifts hk).lineal herrs
    rw [Engine.steps_add, hopened, ← hc k, Engine.steps_add, hk, Engine.steps_one]
  · obtain ⟨k, rfl⟩ : ∃ k', k = k' + 1 := Nat.exists_eq_succ_of_ne_zero fun hzero ↦ by
      subst hzero
      cases hk
    rw [hc] at hk
    have hreads : Reads make ctx options (t :: us) hs' c₁.memory.requests
        c₁.memory.diagnostics.toList := by
      refine ⟨1 + (k + 1), c₁, ?_, rfl, rfl⟩
      rw [Engine.steps_add, hopened, hk]
    have hclean : hasErrors c₁.memory.diagnostics.toList = false := by
      refine hasErrors_eq_false_iff.mpr (herrors.trans ?_)
      rw [hmemory]
      rfl
    obtain ⟨hvalues, htold⟩ := h.understands hopens hopened hline hreads hclean hm
    exact Or.inl ⟨hs', ⟨_, _, hreads, hclean⟩, hvalues, htold, hheads⟩

end Runs

end PlainLedger.Language
