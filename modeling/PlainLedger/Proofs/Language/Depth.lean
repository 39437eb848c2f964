import PlainLedger.Proofs.Language.Between
import PlainLedger.Proofs.Machine.Depth
import PlainLedger.Transcript

/-!
# Only nesting is deep

The lists of the language grow to the right, and an operation is completed before an operator that
does not bind tighter. So the stack is as high as a line is long only where parentheses and signs
nest, and they nest within one line.
-/

namespace PlainLedger.Language

/-! ## The gauge of the language -/

/-- The most slots that there can be up to one of each state, in the order of their numbers, each
terminal that nests counting as three. -/
def listedDepths : List Nat :=
  [1, 2, 2, 3, 3, 3, 3, 3, 3, 3, 3, 3, 3, 3, 3, 3, 3, 3, 3, 3, 3, 3, 3, 3, 3, 3, 3, 3, 3, 3, 3, 4,
    4, 4, 4, 4, 4, 4, 4, 4, 4, 4, 4, 4, 4, 4, 4, 4, 4, 4, 14, 14, 5, 5, 5, 5, 5, 5, 5, 5, 5, 5, 5,
    5, 5, 5, 5, 5, 15, 6, 6, 16, 16, 16, 19, 6, 6, 6, 6, 6, 6, 6, 6, 13, 6, 6, 6, 6, 6, 6, 6, 6, 6,
    17, 17, 17, 7, 18, 18, 15, 15, 7, 7, 7, 7, 7, 7, 7, 7, 7, 14, 7, 7, 7, 7, 18, 8, 19, 19, 16,
    16, 8, 8, 8, 10, 10, 8, 8, 8, 8, 8, 8, 8, 8, 9, 9, 11, 9, 9, 9, 12, 12, 12, 12, 12, 12, 12, 12,
    12, 10, 13, 11, 11, 11, 12, 12, 12, 12, 12, 15, 15, 15, 17, 15, 15, 13, 13, 13, 13, 16, 16, 14,
    14, 14, 14, 14, 17, 15, 15, 18]

/-- The states of what stands in parentheses or after a sign. -/
def listedInside : List Nat :=
  [71, 72, 73, 74, 93, 94, 95, 97, 98, 99, 100, 115, 117, 118, 119, 120]

/-- Opening parentheses and signs nest, and an operator may be a sign. -/
def nests : Terminal → Bool
  | .leftParen | .plus | .minus => true
  | _ => false

def gauge : Gauge where
  nests := nests
  depth n := listedDepths.getD n 0
  inside n := listedInside.contains n
  most := 19
  weight := 3

theorem gauge_fits (ctx : Context) (options : Options) : gauge.Fits (engine ctx options) where
  bottom := by decide
  most n := by
    have hall : ∀ d ∈ listedDepths, d ≤ 19 := by decide +kernel
    change listedDepths.getD n 0 ≤ 19
    rw [List.getD_eq_getElem?_getD]
    cases hn : listedDepths[n]? with
    | none => exact Nat.zero_le 19
    | some d => exact hall d (List.mem_of_getElem? hn)
  allows {n m x row} hrow hx := by
    have hall : ∀ r ∈ listedTables.rows.zipIdx, ∀ w ∈ r.1.ways, gauge.Allows r.2 w.1 w.2 := by
      decide +kernel
    have hrow : listedTables.rows[n]? = some row := tables_eq ▸ hrow
    exact hall (row, n) (List.mem_zipIdx_iff_getElem?.mpr hrow) (x, m) hx
  eol := rfl
  error := rfl

/-! ## Parses -/

variable {H ε σ ω : Type}

theorem outcome_ne_fatal {β : Type} (i : Interpretation H ε σ ω) (value : β → Value H)
    (answer : Except ε β) (cause : Abort) : Session.outcome i value answer ≠ .fatal cause := by
  cases answer <;> exact nofun

/-- Nothing that is asked for gives up a parse. -/
theorem perform_ne_fatal (i : Interpretation H ε σ ω) (origin : Provenance) (s : Session σ)
    (plan : Plan H) (cause : Abort) : (s.perform i origin plan).1 ≠ .fatal cause := by
  cases plan with
  | keep v => exact nofun
  | warn message v => exact nofun
  | construct c => exact outcome_ne_fatal i _ _ cause
  | measure c tolerance? =>
    unfold Session.perform
    dsimp only
    split <;> exact nofun
  | declare d => exact outcome_ne_fatal i _ _ cause

theorem reducer_ne_overflow (i : Interpretation H ε σ ω) (ctx : Context) (p : Production)
    (red : Reduction (Value H)) (s : Session σ) (depth : Nat) :
    ((reducer i ctx).reduce p red s).1 ≠ .fatal (.stackOverflow depth) := by
  unfold reducer
  dsimp only
  split
  · exact nofun
  · exact perform_ne_fatal i _ _ _ _

/-- Whatever the text, well formed or not, and whatever is made of it, the stack is only as high as
one line nests. So with room for that the text is not given up for want of room, unless there is no
memory. -/
theorem height_le_of_nesting (i : Interpretation H ε σ ω) (ctx : Context) (options : Options)
    {tokens : List Token} {k : Nat}
    (hruns : ∀ run ∈ tokens.splitOnP fun t ↦ t.kind == .eol, (run.countP fun t ↦ nests t.kind) ≤ k)
    (state : σ) :
    (∀ n c, (engine ctx options).steps (reducer i ctx) n
        ((engine ctx options).start (reducer i ctx) tokens ⟨state, #[]⟩) = .running c →
      c.stack.length ≤ 24 + 5 * k) ∧
    (24 + 5 * k ≤ options.maxStackDepth →
      (engine ctx options).Reserves (reducer i ctx) tokens ⟨state, #[]⟩ →
      ∀ depth ds, (parse i ctx options tokens state).1 ≠ .failed (.stackOverflow depth) ds) := by
  have hheight : ∀ n c, (engine ctx options).steps (reducer i ctx) n
      ((engine ctx options).start (reducer i ctx) tokens ⟨state, #[]⟩) = .running c →
        c.stack.length ≤ 19 + 3 * k := fun n c hn ↦
    Engine.length_le_of_gauge (gauge_fits ctx options) tables_engine (fun _ _ ↦ not_edge_end) hruns
      _ hn
  refine ⟨fun n c hn ↦ (hheight n c hn).trans (by omega), fun hmost hreserves depth ds ↦ ?_⟩
  have hpost := (engine ctx options).ne_overflow (reducer i ctx) hreserves
    (reducer_ne_overflow i ctx) (fun n c hn ↦ by
      have hle := hheight n c hn
      change c.stack.length < max options.maxStackDepth 1
      omega) (stepBudget tokens.length)
  unfold parse run Engine.run
  cases hlast : (engine ctx options).steps (reducer i ctx) (stepBudget tokens.length)
      ((engine ctx options).start (reducer i ctx) tokens ⟨state, #[]⟩) with
  | running c => exact nofun
  | accepted v c =>
    intro h
    cases v <;> cases h
  | aborted cause c =>
    rw [hlast] at hpost
    intro h
    injection h with hcause
    exact hpost depth hcause

/-- A price in parentheses that is not finished on its line, and the rest of it on the next line. -/
def brokenPrice : List Token :=
  [.ofText .date "2024-01-01" .start, .bare .price .start, .ofText .currency "USD" .start,
    .bare .leftParen .start, .bare .minus .start, .ofText .number "1" .start, .bare .eol .start,
    .bare .plus .start, .ofText .number "2" .start, .bare .rightParen .start, .bare .eol .start]

theorem height_le_of_nesting_brokenPrice :
    (∀ run ∈ brokenPrice.splitOnP fun t ↦ t.kind == .eol,
        (run.countP fun t ↦ nests t.kind) ≤ 2) ∧
      (engine ⟨"main", 0⟩ { maxStackDepth := 34 }).Reserves
        (reducer Transcript.interpretation ⟨"main", 0⟩) brokenPrice ⟨{}, #[]⟩ ∧
      ∀ depth ds, (parse Transcript.interpretation ⟨"main", 0⟩ { maxStackDepth := 34 } brokenPrice
        {}).1 ≠ .failed (.stackOverflow depth) ds := by
  have hruns : ∀ run ∈ brokenPrice.splitOnP fun t ↦ t.kind == .eol,
      (run.countP fun t ↦ nests t.kind) ≤ 2 := by decide
  have hreserves := (engine ⟨"main", 0⟩ { maxStackDepth := 34 }).reserves_of_lt
    (reducer Transcript.interpretation ⟨"main", 0⟩) brokenPrice ⟨{}, #[]⟩ (by decide)
  exact ⟨hruns, hreserves, (height_le_of_nesting Transcript.interpretation ⟨"main", 0⟩
    { maxStackDepth := 34 } hruns {}).2 (by decide) hreserves⟩

end PlainLedger.Language
