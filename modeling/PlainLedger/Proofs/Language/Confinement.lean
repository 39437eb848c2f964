import PlainLedger.Proofs.Language.Damage
import PlainLedger.Proofs.Language.Undated

/-!
# Confinement

A malformed line between texts that are read without error takes nothing away from them. A
declaration may begin anywhere in the line with one of a few kinds of tokens, and reading is taken
up there after an error. So the line costs one error for each time that a declaration may begin in
it, at most, and where the last declaration is read without error, it is kept.
-/

namespace PlainLedger.Language

open Transcript (Refusal)

variable {H : Type}

/-! ## The last declaration of a line -/

/-- A line from the last token on, after the first, that a declaration can begin with, or the whole
line if there is none. -/
def lastStart : List Token → List Token
  | [] => []
  | t :: ts => if ∃ u ∈ ts, u.kind ∈ headKinds then lastStart ts else t :: ts

/-- How many tokens after the first one a declaration can begin with. -/
def laterStarts (ts : List Token) : Nat := ts.tail.countP fun t ↦ t.kind ∈ headKinds

section Lines

variable {ts us : List Token} {t : Token}

theorem lastStart_of_forall (h : ∀ t ∈ ts.tail, t.kind ∉ headKinds) : lastStart ts = ts := by
  cases ts with
  | nil => rfl
  | cons t ts => exact if_neg fun ⟨u, hu, hhead⟩ ↦ h u hu hhead

theorem lastStart_append (h : ∃ u ∈ us, u.kind ∈ headKinds) :
    lastStart (ts ++ us) = lastStart us := by
  induction ts with
  | nil => rfl
  | cons t ts ih =>
    obtain ⟨u, hu, hhead⟩ := h
    exact (if_pos ⟨u, List.mem_append_right _ hu, hhead⟩).trans ih

/-- What is left of a line after an error has the same last declaration. -/
theorem lastStart_later (hlater : later ts = t :: us) (ht : t.kind ∈ headKinds) :
    lastStart ts = lastStart (t :: us) ∧ laterStarts (t :: us) + 1 ≤ laterStarts ts := by
  have htail : ts.tail = ts.tail.takeWhile (fun t ↦ t.kind ∉ resumable) ++ t :: us := by
    rw [← hlater]
    exact List.takeWhile_append_dropWhile.symm
  generalize ts.tail.takeWhile (fun t ↦ t.kind ∉ resumable) = vs at htail
  have hhead : ∃ u ∈ t :: us, u.kind ∈ headKinds := ⟨t, List.mem_cons_self .., ht⟩
  constructor
  · cases ts with
    | nil => cases hlater
    | cons v ts =>
      rw [List.tail_cons] at htail
      rw [htail, ← List.cons_append, lastStart_append hhead]
  · unfold laterStarts
    rw [htail, List.countP_append, List.countP_cons_of_pos (by simpa using ht)]
    exact Nat.le_add_left _ _

theorem length_later_lt (h : ts ≠ []) : (later ts).length < ts.length := by
  obtain ⟨t, us, rfl⟩ := List.exists_cons_of_ne_nil h
  exact Nat.lt_succ_of_le (List.length_dropWhile_le _ us)

end Lines

section Runs

variable {make : Construction H → H} {ctx : Context} {options : Options} {s₀ : Stack (Value H)}
  {log : Array (Event (Value H))} {es hs : List H} {xs : List (Exchange H Refusal)}
  {ds : List Diagnostic} {ts : List Token} {m : Nat} {d d' : Config (Value H) (Granted H)}

/-- What is saved of a text: all of it if it is read without error, and nothing otherwise. -/
inductive Saves (make : Construction H → H) (ctx : Context) (options : Options) (ts : List Token) :
    List H → Nat → Prop where
  | understood {hs : List H} (h : Understood make ctx options ts hs) :
    Saves make ctx options ts hs 0
  | lost (h : ∀ hs, ¬Understood make ctx options ts hs) : Saves make ctx options ts [] 1

/-- What becomes of a line: its last declaration adds what it comes to alone, and the rest adds no
entry. There is one error at most for each time that a declaration may have begun. -/
theorem Reached.saves (hopens : Opens s₀)
    (hopened : ∀ ts, (engine ctx options).steps (granter make ctx) 1 (begin make ctx options ts) =
      .running (opened s₀ log ts))
    (hshifts : 1 ≤ options.recoveryShifts) (hline : IsLine ts)
    (h : Reached ctx options s₀ es xs ds ts d) (hsane : Sane options s₀ d)
    (hm : (engine ctx options).steps (granter make ctx) m (.running d) = .accepted (.list hs) d') :
    ∃ hs' n, Saves make ctx options (lastStart ts) hs' n ∧ hs = es ++ hs' ∧
      d'.memory.errors ≤ d.memory.errors + laterStarts ts + n := by
  induction hn : ts.length using Nat.strong_induction_on generalizing ts d xs ds with
  | _ n ih =>
    rcases h.line hopens (hopened ts) hshifts hline hsane hm with
      ⟨hs', hunderstood, rfl, herrors, hheads⟩ | ⟨hlost, k, d₁, hk, hrecovered⟩
    · refine ⟨hs', 0, ?_, rfl, by omega⟩
      rw [lastStart_of_forall hheads]
      exact .understood hunderstood
    · obtain ⟨⟨xs₁, ds₁, hreached⟩, hsane₁, hline₁, herrors₁⟩ := hrecovered
      have hm₁ := Engine.accepted_of_running hk hm
      have hshorter := length_later_lt hline.ne_nil
      generalize hlater : later ts = us at hreached hline₁ hshorter
      cases hline₁ with
      | @last t ht =>
        -- only the end of the line is left
        rcases hreached.line hopens (hopened [t]) hshifts (.last ht) hsane₁ hm₁ with
          ⟨hs', ⟨xs', ds', hreads, -⟩, rfl, herrors, -⟩ | ⟨-, _, _, -, hrecovered⟩
        · obtain rfl := eq_nil_of_undated hreads fun u hu ↦ by
            rw [List.mem_singleton.mp hu, ht]
            decide
          refine ⟨[], 1, ?_, rfl, by omega⟩
          rw [lastStart_of_forall (IsLine.not_mem_headKinds (Or.inr ⟨t, hlater, ht⟩))]
          exact .lost hlost
        · exact (hrecovered.line.ne_nil rfl).elim
      | @cons t us ht hus =>
        have hhead : t.kind ∈ headKinds := by
          have hresumable := List.head?_dropWhile_not (fun t ↦ decide (t.kind ∉ resumable)) ts.tail
          rw [show ts.tail.dropWhile _ = t :: us from hlater] at hresumable
          exact (mem_resumable_iff ht).mp (by simpa using hresumable)
        obtain ⟨hstart, hcount⟩ := lastStart_later hlater hhead
        obtain ⟨hs', j, hsaves, rfl, herrors⟩ := ih _ (hn ▸ hshorter) (.cons ht hus) hreached hsane₁
          hm₁ rfl
        refine ⟨hs', j, hstart ▸ hsaves, rfl, by omega⟩

/-- A line alone comes to what its last declaration comes to. -/
theorem Reads.saves (hopens : Opens s₀)
    (hopened : ∀ ts, (engine ctx options).steps (granter make ctx) 1 (begin make ctx options ts) =
      .running (opened s₀ log ts))
    (hshifts : 1 ≤ options.recoveryShifts) (hline : IsLine ts)
    (h : Reads make ctx options ts hs xs ds) :
    ∃ n, Saves make ctx options (lastStart ts) hs n ∧ errorCount ds ≤ laterStarts ts + n := by
  obtain ⟨k, c, hk, -, rfl⟩ := h
  obtain ⟨hs', n, hsaves, rfl, herrors⟩ := (hopens.reached ctx options log ts).saves hopens hopened
    hshifts hline (hopens.sane log hline hshifts) (Engine.accepted_of_running (hopened ts) hk)
  refine ⟨n, hsaves, herrors.trans ?_⟩
  rw [show (opened s₀ log ts).memory.errors = 0 from rfl, Nat.zero_add]

end Runs

/-! ## Transcripts -/

/-- The entries that are handed over. -/
def Parsed.output : Parsed (List String) → List String
  | .complete out _ => out
  | _ => []

/-- The entries of a text that is read without error, and no entry of any other. -/
def Parsed.saved (p : Parsed (List String)) : List String := if p.isClean then p.output else []

theorem Saves.transcript {ctx : Context} {options : Options} {ts : List Token}
    {hs : List Transcript.Handle} {n : Nat} (h : Saves Transcript.make ctx options ts hs n) :
    hs.map Transcript.Handle.text = (parse Transcript.interpretation ctx options ts {}).1.saved ∧
      n + (parse Transcript.interpretation ctx options ts {}).1.isClean.toNat = 1 := by
  cases h with
  | understood h =>
    obtain ⟨xs, ds, hreads, hclean⟩ := h
    rw [hreads.transcript.1, Parsed.saved, Parsed.isClean, hclean]
    exact ⟨rfl, rfl⟩
  | lost h =>
    cases hparse : (parse Transcript.interpretation ctx options ts {}).1 with
    | complete out ds =>
      have herrors : hasErrors ds = true := by
        refine Bool.not_eq_false _ ▸ fun hclean ↦ ?_
        obtain ⟨ys, hreads, -⟩ := reads_of_transcript hparse
        exact h _ ⟨ys, ds, hreads, hclean⟩
      rw [Parsed.saved, Parsed.isClean, herrors]
      exact ⟨rfl, rfl⟩
    | failed | unfinished => exact ⟨rfl, rfl⟩

/-- What a malformed line costs: it adds the entries of its last declaration, if that is read
without error alone, and one error for each time that a declaration may have begun, at most. -/
structure Costs (ctx : Context) (options : Options) (line : List Token) (out : List String)
    (ds : List Diagnostic) : Prop where
  saved : out = (parse Transcript.interpretation ctx options (lastStart line) {}).1.saved
  told : 1 ≤ errorCount ds
  errors : errorCount ds +
    (parse Transcript.interpretation ctx options (lastStart line) {}).1.isClean.toNat ≤
      laterStarts line + 1
  single : laterStarts line = 0 → out = [] ∧ errorCount ds = 1

/-- A malformed line between texts that are read without error costs nothing of them. -/
theorem confines_line (ctx : Context) (options : Options) (first line last : List Token)
    (hends : ∀ t ∈ first ++ last, t.kind ≠ .endOfInput)
    {out₁ out₂ : List String} {ds₁ ds₂ : List Diagnostic}
    (hfirst : (parse Transcript.interpretation ctx options first {}).1 = .complete out₁ ds₁)
    (hfirst' : hasErrors ds₁ = false)
    (hlast : (parse Transcript.interpretation ctx options last {}).1 = .complete out₂ ds₂)
    (hlast' : hasErrors ds₂ = false) (hline : IsLine line) (hsound : ∀ t ∈ line, t.Sound)
    (hmalformed : (parse Transcript.interpretation ctx options line {}).1.isClean = false)
    (hshifts : 1 ≤ options.recoveryShifts)
    (hroom : ∀ depth ds,
      (parse Transcript.interpretation ctx options (first ++ line ++ last) {}).1 ≠
      .failed (.stackOverflow depth) ds) :
    ∃ out ds, (parse Transcript.interpretation ctx options (first ++ line ++ last) {}).1 =
        .complete (out₁ ++ out ++ out₂) (ds₁ ++ ds ++ ds₂) ∧
      Costs ctx options line out ds := by
  have hmiddle : ∀ t ∈ line.getLast?, t.kind = .eol := hline.kind_getLast?
  have hindent : ∀ t ∈ line.head?, t.kind ≠ .indent := fun t ht ↦
    hline.ne_of_mem (by decide) (by decide) t (List.mem_of_mem_head? ht)
  have hends' : ∀ t ∈ first ++ line ++ last, t.kind ≠ .endOfInput := by
    simp only [List.mem_append] at hends ⊢
    rintro t ((ht | ht) | ht)
    · exact hends t (Or.inl ht)
    · exact hline.ne_of_mem (by decide) (by decide) t ht
    · exact hends t (Or.inr ht)
  obtain ⟨hs, ys, ds, hreads, hwhole, -⟩ := exists_reads_between hends' hfirst hfirst' hlast hlast'
    hsound hmiddle hindent hroom
  rcases exists_opens Transcript.make ctx options with haborted | ⟨s₀, log, hopens, hopened⟩
  · obtain ⟨k, cause, c, hk⟩ := haborted line
    obtain ⟨m, c', hm, -⟩ := hreads
    exact (Engine.not_aborted_of_accepted hm hk).elim
  obtain ⟨n, hsaves, herrors⟩ := hreads.saves hopens hopened hshifts hline
  obtain ⟨hsaved, hclean⟩ := hsaves.transcript
  have htold : 1 ≤ errorCount ds := by
    refine Nat.one_le_iff_ne_zero.mpr fun hzero ↦ ?_
    rw [hreads.transcript.1, Parsed.isClean, hasErrors_eq_false_iff.mpr hzero] at hmalformed
    cases hmalformed
  refine ⟨_, ds, hwhole, hsaved, htold, by omega, fun hstarts ↦ ?_⟩
  have hheads : ∀ t ∈ line.tail, t.kind ∉ headKinds := fun t ht ↦ by
    simpa using List.countP_eq_zero.mp hstarts t ht
  rw [lastStart_of_forall hheads, Parsed.saved, hmalformed] at hsaved
  exact ⟨hsaved, by omega⟩

/-- A line that an account could be opened on, but for its first word. -/
def lateOpen : List Token :=
  [.bare .closeWord .start, .ofText .date "2024-01-02" .start, .bare .openWord .start,
    .ofText .account "Assets:B" .start, .bare .eol .start]

theorem isLine_lateOpen : IsLine lateOpen :=
  .cons (by decide) (.cons (by decide) (.cons (by decide) (.cons (by decide) (.last rfl))))

theorem sound_lateOpen : ∀ t ∈ lateOpen, t.Sound := by
  simp [lateOpen, Token.Sound, Token.bare, Token.ofText]

theorem parse_lateOpen :
    (parse Transcript.interpretation ⟨"main", 0⟩ {} lateOpen {}).1.isClean = false ∧
      (parse Transcript.interpretation ⟨"main", 0⟩ {} priceLine {}).1.output.length = 1 ∧
      (parse Transcript.interpretation ⟨"main", 0⟩ {}
        (priceLine ++ lateOpen ++ priceLine) {}).1.output.length = 3 := by
  unfold parse run engine
  rw [tables_eq]
  decide +kernel

theorem not_overflow_lateOpen (depth : Nat) (ds : List Diagnostic) :
    (parse Transcript.interpretation ⟨"main", 0⟩ {} (priceLine ++ lateOpen ++ priceLine) {}).1 ≠
      .failed (.stackOverflow depth) ds := by
  intro h
  have hlength := parse_lateOpen.2.2
  rw [h] at hlength
  cases hlength

theorem confines_line_lateOpen :
    ∃ out₁ ds₁,
      (parse Transcript.interpretation ⟨"main", 0⟩ {} priceLine {}).1 = .complete out₁ ds₁ ∧
      hasErrors ds₁ = false ∧ IsLine lateOpen ∧ (∀ t ∈ lateOpen, t.Sound) ∧
      (parse Transcript.interpretation ⟨"main", 0⟩ {} lateOpen {}).1.isClean = false ∧
      ∃ out ds,
        (parse Transcript.interpretation ⟨"main", 0⟩ {} (priceLine ++ lateOpen ++ priceLine) {}).1 =
          .complete (out₁ ++ out ++ out₁) (ds₁ ++ ds ++ ds₁) ∧
        Costs ⟨"main", 0⟩ {} lateOpen out ds := by
  obtain ⟨out₁, ds₁, hcomplete, herrors⟩ := Parsed.exists_of_isClean isClean_transcript
  exact ⟨out₁, ds₁, hcomplete, herrors, isLine_lateOpen, sound_lateOpen, parse_lateOpen.1,
    confines_line ⟨"main", 0⟩ {} priceLine lateOpen priceLine
      (by decide) hcomplete herrors hcomplete
      herrors isLine_lateOpen sound_lateOpen parse_lateOpen.1 (by decide) not_overflow_lateOpen⟩

/-- A malformed line may add an entry: reading is taken up again within it. -/
theorem not_costs_nothing_lateOpen :
    ¬∀ (first line last : List Token) (out₁ out₂ : List String) (ds₁ ds₂ : List Diagnostic),
      (∀ t ∈ first ++ last, t.kind ≠ .endOfInput) →
      (parse Transcript.interpretation ⟨"main", 0⟩ {} first {}).1 = .complete out₁ ds₁ →
      hasErrors ds₁ = false →
      (parse Transcript.interpretation ⟨"main", 0⟩ {} last {}).1 = .complete out₂ ds₂ →
      hasErrors ds₂ = false → IsLine line → (∀ t ∈ line, t.Sound) →
      (parse Transcript.interpretation ⟨"main", 0⟩ {} line {}).1.isClean = false →
      (∀ depth ds, (parse Transcript.interpretation ⟨"main", 0⟩ {} (first ++ line ++ last) {}).1 ≠
        .failed (.stackOverflow depth) ds) →
      ∃ ds, (parse Transcript.interpretation ⟨"main", 0⟩ {} (first ++ line ++ last) {}).1 =
        .complete (out₁ ++ out₂) ds ∧ errorCount ds = 1 := by
  intro h
  obtain ⟨out₁, ds₁, hcomplete, herrors⟩ := Parsed.exists_of_isClean isClean_transcript
  obtain ⟨hmalformed, hone, hthree⟩ := parse_lateOpen
  obtain ⟨ds, hwhole, -⟩ := h priceLine lateOpen priceLine out₁ out₁ ds₁ ds₁ (by decide) hcomplete
    herrors hcomplete herrors isLine_lateOpen sound_lateOpen hmalformed not_overflow_lateOpen
  rw [hcomplete, Parsed.output] at hone
  rw [hwhole, Parsed.output, List.length_append] at hthree
  omega

end PlainLedger.Language
