import PlainLedger.Proofs.Language.Joining
import PlainLedger.Proofs.Language.Transcribed

/-!
# Isolation

Texts that are read without error add to a ledger what they come to alone, whatever stands between
them, as long as it is made of whole lines.
-/

namespace PlainLedger.Language

open Transcript (Refusal)

section Runs

variable {H : Type} {make : Construction H → H} {ctx : Context} {options : Options}
  {s₀ : Stack (Value H)} {log : Array (Event (Value H))} {hs es : List H}
  {xs ys : List (Exchange H Refusal)} {ds ds' : List Diagnostic} {ts more : List Token} {P : Prop}
  {n : Nat} {d : Config (Value H) (Granted H)}

/-- The first step of a run. -/
abbrev begin (make : Construction H → H) (ctx : Context) (options : Options) (ts : List Token) :
    Step (Value H) (Granted H) :=
  (engine ctx options).start (granter make ctx) ts ⟨((), []), #[]⟩

/-- What a text comes to alone: the entries, the requests and the diagnostics. -/
def Reads (make : Construction H → H) (ctx : Context) (options : Options) (ts : List Token)
    (hs : List H) (xs : List (Exchange H Refusal)) (ds : List Diagnostic) : Prop :=
  ∃ k c, (engine ctx options).steps (granter make ctx) k (begin make ctx options ts) =
      .accepted (.list hs) c ∧ c.memory.requests = xs ∧ c.memory.diagnostics.toList = ds

/-- A run that has begun ends. -/
theorem exists_finishes (make : Construction H → H) (ctx : Context) (options : Options)
    (hopened : (engine ctx options).steps (granter make ctx) 1 (begin make ctx options ts) =
      .running (opened s₀ log ts)) :
    ∃ n, Finishes (engine ctx options) (granter make ctx) n (opened s₀ log ts) := by
  refine ⟨stepBudget ts.length, fun c hc ↦ ?_⟩
  have hend := run_ne_unfinished (Interpretation.granting make).watched ctx options ts ((), [])
  rw [← hopened, Engine.steps_comm] at hc
  unfold run Engine.run at hend
  cases hlast : (engine ctx options).steps (granter make ctx) (stepBudget ts.length)
      (begin make ctx options ts) with
  | running c' =>
    rw [hlast] at hend
    exact hend rfl
  | accepted v c' =>
    rw [hlast, Engine.steps_accepted] at hc
    cases hc
  | aborted cause c' =>
    rw [hlast, Engine.steps_aborted] at hc
    cases hc

/-- Nothing goes wrong in a run that comes to a list without error. -/
theorem clean_of_reads {k m : Nat} {c c' : Config (Value H) (Granted H)}
    (hm : (engine ctx options).steps (granter make ctx) m (begin make ctx options ts) =
      .accepted (.list hs) c')
    (herrors : hasErrors c'.memory.diagnostics.toList = false)
    (hk : (engine ctx options).steps (granter make ctx) k (begin make ctx options ts) =
      .running c) : c.Clean := by
  have hlast := Engine.continues_steps (e := engine ctx options) (r := granter make ctx)
    tables_engine m ts ⟨((), []), #[]⟩
  rw [hm] at hlast
  obtain ⟨x, y, htrace, -⟩ := hlast
  have hreported : ¬c'.Reported := (Voiced.of_trace htrace).hasErrors_iff.mp herrors
  have hclean := Engine.post_clean (e := engine ctx options) (r := granter make ctx)
    tables_engine (fun _ _ ↦ not_edge_end) ts ⟨((), []), #[]⟩ k
  rw [hk] at hclean
  refine hclean.2.resolve_left fun h ↦ hreported (h.recalls ?_)
  have hrecalls := Engine.recalls_steps (engine ctx options) (r := granter make ctx) m
    (.running c)
  rwa [Engine.accepted_of_running hk hm] at hrecalls

/-- A text that is read without error is read in the same way wherever it stands. -/
theorem Reads.exists_reached (h : Reads make ctx options ts hs xs ds)
    (herrors : hasErrors ds = false) (hopens : Opens s₀)
    (hopened : (engine ctx options).steps (granter make ctx) 1 (begin make ctx options ts) =
      .running (opened s₀ log ts))
    (hreached : Reached ctx options s₀ es ys ds' (ts ++ more) d) (hquiet : P → d.quiet = 0)
    (hends : ∀ t ∈ ts ++ more, t.kind ≠ .endOfInput) (hlines : ∀ t ∈ ts.getLast?, EndsLine t)
    (hindent : ∀ t ∈ more.head?, t.kind ≠ .indent) :
    ∃ k d', (engine ctx options).steps (granter make ctx) k (.running d) = .running d' ∧
      Reached ctx options s₀ (es ++ hs) (ys ++ xs) (ds' ++ ds) more d' ∧ (P → d'.quiet = 0) := by
  obtain ⟨m, c', hm, rfl, rfl⟩ := h
  have hpoint : ∀ {j : Nat} {c : Config (Value H) (Granted H)},
      (engine ctx options).steps (granter make ctx) j (.running (opened s₀ log ts)) = .running c →
        c.Clean ∧ (engine ctx options).steps (granter make ctx) m (.running c) =
          .accepted (.list hs) c' := by
    intro j c hc
    rw [← hopened, ← Engine.steps_add] at hc
    exact ⟨clean_of_reads hm herrors hc, Engine.accepted_of_running hc hm⟩
  obtain ⟨n, hn⟩ := exists_finishes make ctx options hopened
  cases Language.exists_reached hopens hreached hquiet hends hlines hindent hn with
  | @arrive k c d' hc hd h =>
    obtain ⟨hs', ⟨j, c'', haccepted, hmemory⟩, hreached', hquiet'⟩ := h
    obtain ⟨hclean, hrest⟩ := hpoint hc
    obtain ⟨⟨⟩, rfl⟩ := Engine.accepted_unique haccepted hrest
    rw [hmemory]
    exact ⟨k, d', hd, hreached', fun hP ↦ (hquiet' hP).trans hclean.quiet⟩
  | aborted k hc hd =>
    rw [← hopened, ← Engine.steps_add] at hc
    exact (Engine.not_aborted_of_accepted hm hc).elim
  | apart k hP h =>
    cases hs' : (engine ctx options).steps (granter make ctx) k (.running (opened s₀ log ts)) with
    | running c =>
      rw [hs'] at h
      have hzero : c.recoveries = 0 := (hpoint hs').1.recoveries_eq
      have hpositive : 0 < c.recoveries := h
      omega
    | accepted v c =>
      rw [hs'] at h
      exact h.elim
    | aborted cause c =>
      rw [← hopened, ← Engine.steps_add] at hs'
      exact (Engine.not_aborted_of_accepted hm hs').elim

/-- A run over tokens that carry what their kinds ask for is not given up for a defect. -/
theorem not_stopped_of_sound {ε σ ω : Type} {i : Interpretation H ε σ ω} {s s' : Session σ}
    {defect : Defect} {evs : List (Event (Value H))} {slots : List (Slot (Value H))}
    (h : Stopped (engine ctx options) (reducer i ctx) s (.defect defect) evs slots s')
    (hsound : ∀ t v, .shift t v ∈ evs → t.Sound) : False := by
  cases h with
  | fatal htrace hrule hhas hverdict =>
    obtain ⟨xs, hs⟩ := typed_of_trace htrace fun t v hmem ↦
      hsound t v (List.mem_append_left _ hmem)
    exact (typed_completed i ctx hs hrule hhas hverdict).1 _ rfl

/-- If tokens carry what their kinds ask for, a text of whole lines is only given up because there
was no room on the stack. -/
theorem overflow_of_aborted {k : Nat} {cause : Abort} {c : Config (Value H) (Granted H)}
    (hopens : Opens s₀)
    (hopened : (engine ctx options).steps (granter make ctx) 1 (begin make ctx options ts) =
      .running (opened s₀ log ts))
    (hsound : ∀ t ∈ ts, t.Sound) (hends : ∀ t ∈ ts, t.kind ≠ .endOfInput)
    (hlines : ∀ t ∈ ts.getLast?, EndsLine t)
    (h : (engine ctx options).steps (granter make ctx) k (.running (opened s₀ log ts)) =
      .aborted cause c) : ∃ depth, cause = .stackOverflow depth := by
  have hlineal := (engine ctx options).post_steps (granter make ctx)
    (fun _ h ↦ Lineal.post_step make ctx options h) k
    (show (Step.running (opened s₀ log ts)).Post _ _ _ from hopens.lineal log hends hlines)
  rw [h] at hlineal
  refine hlineal.resolve_right ?_
  rintro ⟨defect, rfl⟩
  have hstopped := Engine.ends_inOrder (e := engine ctx options) (r := granter make ctx)
    tables_engine ts ⟨((), []), #[]⟩ (1 + k)
  rw [Engine.steps_add, hopened, h] at hstopped
  obtain ⟨hstopped, hin⟩ := hstopped
  exact not_stopped_of_sound hstopped fun _ _ ↦ sound_of_shift hin hsound

/-- A text of whole lines comes to something, unless the stack overflows. -/
theorem exists_reads_reached (hopens : Opens s₀)
    (hopened : (engine ctx options).steps (granter make ctx) 1 (begin make ctx options ts) =
      .running (opened s₀ log ts))
    (hsound : ∀ t ∈ ts, t.Sound) (hreached : Reached ctx options s₀ es ys ds' (ts ++ more) d)
    (hquiet : d.quiet = 0) (hends : ∀ t ∈ ts ++ more, t.kind ≠ .endOfInput)
    (hlines : ∀ t ∈ ts.getLast?, EndsLine t) (hindent : ∀ t ∈ more.head?, t.kind ≠ .indent) :
    (∃ hs xs ds, Reads make ctx options ts hs xs ds ∧ ∃ k d',
      (engine ctx options).steps (granter make ctx) k (.running d) = .running d' ∧
        Reached ctx options s₀ (es ++ hs) (ys ++ xs) (ds' ++ ds) more d') ∨
      ∃ k depth d', (engine ctx options).steps (granter make ctx) k (.running d) =
        .aborted (.stackOverflow depth) d' := by
  obtain ⟨n, hn⟩ := exists_finishes make ctx options hopened
  cases Language.exists_reached (P := True) hopens hreached (fun _ ↦ hquiet) hends hlines hindent
    hn with
  | @arrive k c d' hc hd h =>
    obtain ⟨hs, ⟨j, c', haccepted, hmemory⟩, hreached', -⟩ := h
    refine Or.inl ⟨hs, _, _, ⟨1 + (k + j), c', ?_, congrArg Session.requests hmemory,
      congrArg (fun m ↦ m.diagnostics.toList) hmemory⟩, k, d', hd, hreached'⟩
    rw [Engine.steps_add, hopened, Engine.steps_add, hc, haccepted]
  | aborted k hc hd =>
    have hends' : ∀ t ∈ ts, t.kind ≠ .endOfInput := fun t ht ↦
      hends t (List.mem_append_left _ ht)
    obtain ⟨depth, rfl⟩ := overflow_of_aborted hopens hopened hsound hends' hlines hc
    exact Or.inr ⟨k, depth, _, hd⟩
  | apart k hP h => exact (hP trivial).elim

/-- Where no text is left, the list is accepted. -/
theorem Reached.accepts (hopens : Opens s₀) (h : Reached ctx options s₀ hs xs ds [] d)
    (make : Construction H → H) :
    ∃ k c, (engine ctx options).steps (granter make ctx) k (.running d) = .accepted (.list hs) c ∧
      c.memory.requests = xs ∧ c.memory.diagnostics.toList = ds := by
  obtain ⟨y, b, hslots, hy, hvalue, hlast⟩ := h.slots
  obtain ⟨ws, hhead, hds⟩ := h.ahead
  obtain ⟨x, b', hslots', -, -, hb⟩ := hopens.slots
  obtain rfl : b' = b := by
    rw [hslots'] at hlast
    exact Option.some.inj hlast
  obtain ⟨rfl, hpending⟩ : ws = [] ∧ d.pending = [] := by
    cases hhead with
    | unread hahead hinput hexhausted =>
      refine ⟨rfl, ?_⟩
      unfold Config.pending
      rw [hahead, hinput, hexhausted]
      rfl
    | read hmore => cases hmore
    | ended _ hpending => exact ⟨rfl, hpending⟩
  obtain ⟨c, haccepted, hmemory⟩ := exists_accepted make ctx options hslots hy hvalue hb
    (h.room hopens).2 hpending
  refine ⟨2, c, haccepted, (congrArg Session.requests hmemory).trans h.requests, ?_⟩
  rw [hmemory, hds, List.append_nil]

/-- Two texts that are read without error come to the same with a text of whole lines between them,
which comes to what it comes to alone. -/
theorem Reads.around {first middle last : List Token} {hs' : List H} (hopens : Opens s₀)
    {xs' : List (Exchange H Refusal)}
    (hopened : ∀ ts, (engine ctx options).steps (granter make ctx) 1 (begin make ctx options ts) =
      .running (opened s₀ log ts))
    (hfirst : Reads make ctx options first hs xs ds) (hfirst' : hasErrors ds = false)
    (hlast : Reads make ctx options last hs' xs' ds') (hlast' : hasErrors ds' = false)
    (hends : ∀ t ∈ first ++ (middle ++ last), t.kind ≠ .endOfInput)
    (hsound : ∀ t ∈ middle, t.Sound)
    (hlines : ∀ ts ∈ [first, middle, last], ∀ t ∈ ts.getLast?, EndsLine t)
    (hindent : ∀ ts ∈ [middle, last], ∀ t ∈ ts.head?, t.kind ≠ .indent) :
    (∃ es ys ws, Reads make ctx options middle es ys ws ∧
      Reads make ctx options (first ++ (middle ++ last)) (hs ++ es ++ hs') (xs ++ ys ++ xs')
        (ds ++ ws ++ ds')) ∨
      ∃ k depth c, (engine ctx options).steps (granter make ctx) k
        (begin make ctx options (first ++ (middle ++ last))) =
      .aborted (.stackOverflow depth) c := by
  simp only [List.forall_mem_cons] at hlines hindent
  obtain ⟨hlines₁, hlines₂, hlines₃, -⟩ := hlines
  obtain ⟨hindent₂, hindent₃, -⟩ := hindent
  have hindent : ∀ t ∈ (middle ++ last).head?, t.kind ≠ .indent := by
    cases middle with
    | nil => exact hindent₃
    | cons => exact hindent₂
  obtain ⟨k₁, d₁, hd₁, hreached₁, hquiet₁⟩ := hfirst.exists_reached (P := True) hfirst' hopens
    (hopened first) (hopens.reached ctx options log (first ++ (middle ++ last))) (fun _ ↦ rfl) hends
    hlines₁ hindent
  have hends₂ : ∀ t ∈ middle ++ last, t.kind ≠ .endOfInput := fun t ht ↦
    hends t (List.mem_append_right _ ht)
  rcases exists_reads_reached hopens (hopened middle) hsound hreached₁ (hquiet₁ trivial) hends₂
    hlines₂ hindent₃ with ⟨es, ys, ws, hmiddle, k₂, d₂, hd₂, hreached₂⟩ | ⟨k₂, depth, d₂, hd₂⟩
  · rw [← List.append_nil last] at hreached₂ hends₂
    obtain ⟨k₃, d₃, hd₃, hreached₃, -⟩ := hlast.exists_reached (P := False) hlast' hopens
      (hopened last) hreached₂ False.elim (fun t ht ↦ hends₂ t (List.mem_append_right _ ht)) hlines₃
      nofun
    obtain ⟨k₄, d₄, hd₄, hrequests, hdiagnostics⟩ := hreached₃.accepts hopens make
    refine Or.inl ⟨es, ys, ws, hmiddle, 1 + (k₁ + (k₂ + (k₃ + k₄))), d₄, ?_, hrequests,
      hdiagnostics⟩
    rw [Engine.steps_add, hopened, Engine.steps_add, hd₁, Engine.steps_add, hd₂, Engine.steps_add,
      hd₃, hd₄]
    rfl
  · refine Or.inr ⟨1 + (k₁ + k₂), depth, d₂, ?_⟩
    rw [Engine.steps_add, hopened, Engine.steps_add, hd₁, hd₂]

end Runs

/-! ## Parses -/

section Parses

variable {H : Type} {make : Construction H → H} {ctx : Context} {options : Options}
  {ts : List Token} {hs : List H} {ds : List Diagnostic} {ys : List (Exchange H Refusal)}

/-- What is complete has been accepted. -/
theorem reads_of_parse
    (h : parse (Interpretation.granting make).watched ctx options ts ((), []) =
      (.complete hs ds, (), ys)) :
    Reads make ctx options ts hs (ys.filter Exchange.isRequest) ds := by
  unfold parse run Engine.run at h
  cases hlast : (engine ctx options).steps (granter make ctx) (stepBudget ts.length)
      (begin make ctx options ts) with
  | running c =>
    rw [hlast] at h
    cases h
  | aborted cause c =>
    rw [hlast] at h
    cases h
  | accepted v c =>
    rw [hlast] at h
    by_cases hlist : ∃ entries, v = .list entries
    · obtain ⟨entries, rfl⟩ := hlist
      have hrecord := record_clear (Interpretation.granting make) ctx c
      have hdiagnostics := diagnostics_clear (Interpretation.granting make).watched ctx c
      obtain ⟨hparsed, hstate⟩ := Prod.mk.inj h
      obtain ⟨hentries, hds⟩ := Parsed.complete.inj hparsed
      refine ⟨_, c, hlast.trans (congrArg (fun hs ↦ Step.accepted (.list hs) c) hentries), ?_, ?_⟩
      · have hys : (Engine.clear (granter make ctx) c).memory.record ++ [.finish entries] = ys :=
          (Prod.mk.inj hstate).2
        rw [← hys, List.filter_append, hrecord]
        exact (List.append_nil _).symm
      · rw [← hds]
        exact (congrArg Array.toList hdiagnostics).symm
    · rw [show (engine ctx options).finish (granter make ctx) (.accepted v c) =
        (.accepted v, Engine.clear (granter make ctx) c) from rfl,
        conclude_of_ne_list _ ctx (fun entries h ↦ hlist ⟨entries, h⟩)] at h
      cases h

/-- A run that ends is the run of the parse. -/
theorem run_of_ends {k : Nat} {s : Step (Value H) (Granted H)}
    (h : (engine ctx options).steps (granter make ctx) k (begin make ctx options ts) = s)
    (hs : s.Post (fun _ ↦ False) (fun _ _ ↦ True) fun _ _ ↦ True) :
    run (Interpretation.granting make).watched ctx options ts ((), []) =
      (engine ctx options).finish (granter make ctx) s := by
  subst h
  exact Engine.run_eq_finish
    (run_ne_unfinished (Interpretation.granting make).watched ctx options ts ((), [])) hs

/-- What has been accepted is complete. -/
theorem Reads.exists_parse (h : Reads make ctx options ts hs ys ds) :
    ∃ zs, parse (Interpretation.granting make).watched ctx options ts ((), []) =
      (.complete hs ds, (), zs) ∧ zs.filter Exchange.isRequest = ys := by
  obtain ⟨k, c, hk, rfl, rfl⟩ := h
  have hrecord := record_clear (Interpretation.granting make) ctx c
  have hdiagnostics := diagnostics_clear (Interpretation.granting make).watched ctx c
  unfold parse
  rw [run_of_ends hk trivial]
  refine ⟨(Engine.clear (granter make ctx) c).memory.record ++ [.finish hs], ?_, ?_⟩
  · exact congrArg (fun ds ↦ (Parsed.complete hs (Array.toList ds), (), _)) hdiagnostics
  · rw [List.filter_append, hrecord]
    exact List.append_nil _

theorem exists_parse_of_overflow {k depth : Nat} {c : Config (Value H) (Granted H)}
    (h : (engine ctx options).steps (granter make ctx) k (begin make ctx options ts) =
      .aborted (.stackOverflow depth) c) :
    ∃ ds ys, parse (Interpretation.granting make).watched ctx options ts ((), []) =
      (.failed (.stackOverflow depth) ds, (), ys) := by
  unfold parse
  rw [run_of_ends h trivial]
  exact ⟨_, _, rfl⟩

end Parses

/-! ## Transcripts -/

section Transcripts

variable {ctx : Context} {options : Options} {ts : List Token} {out : List String}
  {hs : List Transcript.Handle} {ds : List Diagnostic}
  {ys : List (Exchange Transcript.Handle Refusal)}

/-- Only requests are noted as such. -/
theorem filterMap_called? (ys : List (Exchange Transcript.Handle Refusal)) :
    (ys.filter Exchange.isRequest).filterMap Transcript.called? =
      ys.filterMap Transcript.called? := by
  rw [List.filterMap_filter]
  refine List.filterMap_congr fun x _ ↦ ?_
  cases x <;> rfl

/-- What is read into a transcript is read where everything is granted. -/
theorem reads_of_transcript
    (h : (parse Transcript.interpretation ctx options ts {}).1 = .complete out ds) :
    ∃ ys, Reads Transcript.make ctx options ts (out.map fun text ↦ ⟨0, text⟩) ys ds ∧
      (parse Transcript.interpretation ctx options ts {}).2.requests =
        ys.filterMap Transcript.called? := by
  obtain ⟨zs, hparse, hrequests⟩ := Transcript.parse_granting ctx options ts
  rw [h] at hparse
  exact ⟨_, reads_of_parse hparse, hrequests.trans (filterMap_called? zs).symm⟩

theorem Reads.transcript (h : Reads Transcript.make ctx options ts hs ys ds) :
    (parse Transcript.interpretation ctx options ts {}).1 =
        .complete (hs.map Transcript.Handle.text) ds ∧
      (parse Transcript.interpretation ctx options ts {}).2.requests =
        ys.filterMap Transcript.called? := by
  obtain ⟨zs, hparse, hrequests⟩ := Transcript.parse_granting ctx options ts
  obtain ⟨zs', hparse', rfl⟩ := h.exists_parse
  obtain ⟨hresult, hrecord⟩ := Prod.mk.inj (hparse'.symm.trans hparse)
  obtain rfl : zs' = zs := (Prod.mk.inj hrecord).2
  refine ⟨?_, hrequests.trans (filterMap_called? zs').symm⟩
  generalize (parse Transcript.interpretation ctx options ts {}).1 = p at hresult
  cases p with
  | complete out ds' =>
    obtain ⟨rfl, rfl⟩ := Parsed.complete.inj hresult
    rw [List.map_map]
    exact congrArg (Parsed.complete · ds) (List.map_id' out).symm
  | failed | unfinished => cases hresult

theorem transcript_of_overflow {k depth : Nat}
    {c : Config (Value Transcript.Handle) (Granted Transcript.Handle)}
    (h : (engine ctx options).steps (granter Transcript.make ctx) k
      (begin Transcript.make ctx options ts) = .aborted (.stackOverflow depth) c) :
    ∃ ds, (parse Transcript.interpretation ctx options ts {}).1 =
      .failed (.stackOverflow depth) ds := by
  obtain ⟨ds, zs, hparse⟩ := exists_parse_of_overflow h
  obtain ⟨zs', hparse', -⟩ := Transcript.parse_granting ctx options ts
  have hresult := (Prod.mk.inj (hparse.symm.trans hparse')).1
  generalize (parse Transcript.interpretation ctx options ts {}).1 = p at hresult
  cases p with
  | failed cause ds' =>
    obtain ⟨rfl, rfl⟩ := Parsed.failed.inj hresult
    exact ⟨ds, rfl⟩
  | complete | unfinished => cases hresult

/-- Between texts that are read without error, a text of whole lines adds what it comes to alone. -/
theorem exists_reads_between {first middle last : List Token}
    (hends : ∀ t ∈ first ++ middle ++ last, t.kind ≠ .endOfInput)
    {out₁ out₂ : List String} {ds₁ ds₂ : List Diagnostic}
    (hfirst : (parse Transcript.interpretation ctx options first {}).1 = .complete out₁ ds₁)
    (hfirst' : hasErrors ds₁ = false)
    (hlast : (parse Transcript.interpretation ctx options last {}).1 = .complete out₂ ds₂)
    (hlast' : hasErrors ds₂ = false) (hsound : ∀ t ∈ middle, t.Sound)
    (hline : ∀ t ∈ middle.getLast?, t.kind = .eol) (hindent : ∀ t ∈ middle.head?, t.kind ≠ .indent)
    (hroom : ∀ depth ds,
      (parse Transcript.interpretation ctx options (first ++ middle ++ last) {}).1 ≠
      .failed (.stackOverflow depth) ds) :
    ∃ hs ys ds, Reads Transcript.make ctx options middle hs ys ds ∧
      (parse Transcript.interpretation ctx options (first ++ middle ++ last) {}).1 =
        .complete (out₁ ++ hs.map Transcript.Handle.text ++ out₂) (ds₁ ++ ds ++ ds₂) ∧
      (parse Transcript.interpretation ctx options (first ++ middle ++ last) {}).2.requests =
        (parse Transcript.interpretation ctx options first {}).2.requests ++
          ys.filterMap Transcript.called? ++
          (parse Transcript.interpretation ctx options last {}).2.requests := by
  have hends' : ∀ ts ∈ [first, middle, last], ∀ t ∈ ts, t.kind ≠ .endOfInput := by
    simp only [List.mem_append] at hends
    simp only [List.forall_mem_cons]
    exact ⟨fun t ht ↦ hends t (Or.inl (Or.inl ht)), fun t ht ↦ hends t (Or.inl (Or.inr ht)),
      fun t ht ↦ hends t (Or.inr ht), nofun⟩
  simp only [List.forall_mem_cons] at hends'
  obtain ⟨hends₁, -, hends₃, -⟩ := hends'
  obtain ⟨-, hlines₁⟩ := whole_of_complete hfirst hfirst' hends₁
  obtain ⟨hindent₃, hlines₃⟩ := whole_of_complete hlast hlast' hends₃
  have hlines₂ : ∀ t ∈ middle.getLast?, EndsLine t := fun t ht ↦ by
    rw [EndsLine, hline t ht]
    exact List.mem_cons_self ..
  obtain ⟨ys₁, hreads₁, hrequests₁⟩ := reads_of_transcript hfirst
  obtain ⟨ys₃, hreads₃, hrequests₃⟩ := reads_of_transcript hlast
  rcases exists_opens Transcript.make ctx options with haborted | ⟨s₀, log, hopens, hopened⟩
  · obtain ⟨k, cause, c, hk⟩ := haborted first
    obtain ⟨m, c', hm, -⟩ := hreads₁
    exact (Engine.not_aborted_of_accepted hm hk).elim
  rw [List.append_assoc] at hends hroom ⊢
  rcases hreads₁.around hopens hopened hfirst' hreads₃ hlast' hends hsound
    (by simp only [List.forall_mem_cons]; exact ⟨hlines₁, hlines₂, hlines₃, nofun⟩)
    (by simp only [List.forall_mem_cons]; exact ⟨hindent, hindent₃, nofun⟩) with
    ⟨es, ys, ws, hreads₂, hreads⟩ | ⟨k, depth, c, hk⟩
  · obtain ⟨hwhole, hrequests⟩ := hreads.transcript
    have hplain : ∀ out : List String,
        (out.map fun text ↦ (⟨0, text⟩ : Transcript.Handle)).map Transcript.Handle.text = out :=
      fun out ↦ by
        rw [List.map_map]
        exact List.map_id' out
    rw [List.map_append, List.map_append, hplain, hplain] at hwhole
    refine ⟨es, ys, ws, hreads₂, hwhole, ?_⟩
    rw [hrequests, hrequests₁, hrequests₃, List.filterMap_append, List.filterMap_append]
  · obtain ⟨ds, hoverflow⟩ := transcript_of_overflow hk
    exact (hroom depth ds hoverflow).elim

end Transcripts

/-- The parse has come to the end of the text. -/
def Parsed.isComplete {ω : Type} : Parsed ω → Bool
  | .complete _ _ => true
  | _ => false

/-- Malformed text does not damage its neighbours. Texts that are read without error come to the
same entries, requests and diagnostics with a text of whole lines between them, which may be in any
disorder: it adds what it comes to alone. -/
theorem isolates_text (ctx : Context) (options : Options) (first middle last : List Token)
    (hends : ∀ t ∈ first ++ middle ++ last, t.kind ≠ .endOfInput)
    {out₁ out₂ : List String} {ds₁ ds₂ : List Diagnostic}
    (hfirst : (parse Transcript.interpretation ctx options first {}).1 = .complete out₁ ds₁)
    (hfirst' : hasErrors ds₁ = false)
    (hlast : (parse Transcript.interpretation ctx options last {}).1 = .complete out₂ ds₂)
    (hlast' : hasErrors ds₂ = false) (hsound : ∀ t ∈ middle, t.Sound)
    (hline : ∀ t ∈ middle.getLast?, t.kind = .eol) (hindent : ∀ t ∈ middle.head?, t.kind ≠ .indent)
    (hroom : ∀ depth ds,
      (parse Transcript.interpretation ctx options (first ++ middle ++ last) {}).1 ≠
      .failed (.stackOverflow depth) ds) :
    ∃ out ds,
      (parse Transcript.interpretation ctx options middle {}).1 = .complete out ds ∧
      (parse Transcript.interpretation ctx options (first ++ middle ++ last) {}).1 =
        .complete (out₁ ++ out ++ out₂) (ds₁ ++ ds ++ ds₂) ∧
      (parse Transcript.interpretation ctx options (first ++ middle ++ last) {}).2.requests =
        (parse Transcript.interpretation ctx options first {}).2.requests ++
          (parse Transcript.interpretation ctx options middle {}).2.requests ++
          (parse Transcript.interpretation ctx options last {}).2.requests := by
  obtain ⟨hs, ys, ds, hreads, hwhole, hrequests⟩ := exists_reads_between hends hfirst hfirst' hlast
    hlast' hsound hline hindent hroom
  obtain ⟨hmiddle, hrequests'⟩ := hreads.transcript
  exact ⟨_, _, hmiddle, hwhole, hrequests' ▸ hrequests⟩

/-- A line with nothing but the word `open` on it. -/
def strayWord : List Token := [.bare .openWord .start, .bare .eol .start]

theorem isClean_transcript :
    (parse Transcript.interpretation ⟨"main", 0⟩ {} priceLine {}).1.isClean = true := by
  unfold parse run engine
  rw [tables_eq]
  decide +kernel

theorem not_overflow_strayWord (depth : Nat) (ds : List Diagnostic) :
    (parse Transcript.interpretation ⟨"main", 0⟩ {} (priceLine ++ strayWord ++ priceLine) {}).1 ≠
      .failed (.stackOverflow depth) ds := by
  have hcomplete : (parse Transcript.interpretation ⟨"main", 0⟩ {}
      (priceLine ++ strayWord ++ priceLine) {}).1.isComplete = true := by
    unfold parse run engine
    rw [tables_eq]
    decide +kernel
  intro h
  rw [h] at hcomplete
  cases hcomplete

theorem isolates_text_strayWord :
    ∃ out₁ ds₁,
      (parse Transcript.interpretation ⟨"main", 0⟩ {} priceLine {}).1 = .complete out₁ ds₁ ∧
      hasErrors ds₁ = false ∧ (∀ t ∈ strayWord, t.Sound) ∧
      ∃ out ds,
        (parse Transcript.interpretation ⟨"main", 0⟩ {} strayWord {}).1 = .complete out ds ∧
        (parse Transcript.interpretation ⟨"main", 0⟩ {}
          (priceLine ++ strayWord ++ priceLine) {}).1 =
          .complete (out₁ ++ out ++ out₁) (ds₁ ++ ds ++ ds₁) ∧
        (parse Transcript.interpretation ⟨"main", 0⟩ {}
            (priceLine ++ strayWord ++ priceLine) {}).2.requests =
          (parse Transcript.interpretation ⟨"main", 0⟩ {} priceLine {}).2.requests ++
            (parse Transcript.interpretation ⟨"main", 0⟩ {} strayWord {}).2.requests ++
            (parse Transcript.interpretation ⟨"main", 0⟩ {} priceLine {}).2.requests := by
  obtain ⟨out₁, ds₁, hcomplete, herrors⟩ := Parsed.exists_of_isClean isClean_transcript
  have hsound : ∀ t ∈ strayWord, t.Sound := by
    simp [strayWord, Token.Sound, Token.bare]
  exact ⟨out₁, ds₁, hcomplete, herrors, hsound, isolates_text ⟨"main", 0⟩ {} priceLine strayWord
    priceLine (by decide) hcomplete herrors hcomplete herrors hsound (by decide) (by decide)
    not_overflow_strayWord⟩

end PlainLedger.Language
