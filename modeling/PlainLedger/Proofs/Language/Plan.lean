import PlainLedger.Language.Parse

/-!
# What a plan asks for

A production asks for an entry exactly if it is that of an entry, whatever values it is given.
-/

namespace PlainLedger.Language

variable {H ε σ ω : Type}

/-- The plan asks for an entry, or for something else, as `entry` says. -/
def Plan.Makes (entry : Bool) : Plan H → Prop
  | construct c => c.isEntry = entry
  | measure c _ => c.isEntry = false ∧ entry = false
  | _ => entry = false

/-- Completing the rule makes an entry. -/
def Production.makesEntry : Production → Bool
  | .transaction | .openEntry | .closeEntry | .commodity | .pad | .balance | .price | .event
  | .note | .document => true
  | _ => false

/-- The production puts declarations together, in which an interpretation has no say. -/
def Production.gathers : Production → Bool
  | .file | .declarationsEmpty | .declarationsDirective | .declarationsEntry
  | .declarationsError => true
  | _ => false

/-- Completing the rule warns of a form out of use. -/
def Production.warns : Production → Bool
  | .fieldPipe | .lotListSlash => true
  | _ => false

/-- Nothing is written for the phrase. -/
def Production.isBlank : Production → Bool
  | .declarationsEmpty | .fieldsEmpty | .optFlagNone | .metaEmpty | .linesEmpty | .metaListEmpty
  | .currenciesEmpty | .bookingNone | .maybeNumberNone | .lotListEmpty => true
  | _ => false

/-- The plan does not warn. -/
def Plan.Quiet : Plan H → Prop
  | warn .. => False
  | _ => True

namespace Take

/-- Whatever values are taken, the result has the property. -/
def Returns {β : Type} (P : β → Prop) (m : Take H β) : Prop :=
  ∀ a b a', m.run a = .ok (b, a') → P b

variable {β γ : Type} {P : β → Prop} {Q : γ → Prop}

theorem returns_pure {b : β} (h : P b) : Returns P (pure b : Take H β) := by
  intro a b' a' hrun
  cases hrun
  exact h

theorem returns_bind {m : Take H β} {f : β → Take H γ} (h : ∀ b, Returns Q (f b)) :
    Returns Q (m >>= f) := by
  intro a c a' hrun
  rw [StateT.run_bind] at hrun
  cases hm : m.run a with
  | error misfit =>
    rw [hm] at hrun
    cases hrun
  | ok out =>
    rw [hm] at hrun
    exact h out.1 out.2 c a' hrun

theorem returns_throw {misfit : Misfit} : Returns P (throw misfit : Take H β) := by
  intro a b a' hrun
  cases hrun

theorem returns_posting {origin : Provenance} {txnFlag? : Option Char} {totalPrice : Bool}
    {parts : Take H (Option H × Option H)} :
    Returns (Plan.Makes false) (posting origin txnFlag? totalPrice parts) := by
  unfold posting
  split
  · exact returns_bind fun _ ↦ returns_bind fun _ ↦ returns_bind fun _ ↦ returns_bind fun _ ↦
      returns_pure rfl
  · exact returns_throw

theorem returns_dated {origin : Provenance} {body : Take H (Statement H)} :
    Returns (Plan.Makes true) (dated origin body) :=
  returns_bind fun _ ↦ returns_bind fun _ ↦ returns_bind fun _ ↦ returns_bind fun _ ↦
    returns_bind fun _ ↦ returns_pure rfl

theorem returns_binary {op : Operator} :
    Returns (H := H) (Plan.Makes false) (binary op) :=
  returns_bind fun _ ↦ returns_bind fun _ ↦ returns_bind fun _ ↦ returns_pure rfl

end Take

open Take

/-- Only the productions of entries ask for entries. -/
theorem returns_plan (p : Production) (origin : Provenance) (txnFlag? : Option Char) :
    Returns (H := H) (Plan.Makes p.makesEntry) (p.plan origin txnFlag?) := by
  cases p
  case add | subtract | multiply | divide => exact returns_binary
  case postingBare | postingUnits | postingPerUnitPrice | postingTotalPrice => exact returns_posting
  case openEntry | closeEntry | commodity | pad | balance | price | event | note | document =>
    exact returns_dated
  all_goals
    repeat' first
      | exact returns_pure rfl
      | exact returns_pure ⟨rfl, rfl⟩
      | refine returns_bind fun _ ↦ ?_

/-- Nothing is asked for where declarations are put together. -/
theorem returns_keep {p : Production} (h : p.gathers = true) (origin : Provenance)
    (txnFlag? : Option Char) :
    Returns (H := H) (fun plan ↦ ∃ v, plan = .keep v) (p.plan origin txnFlag?) := by
  cases p <;> first
    | cases h; done
    | exact returns_pure ⟨_, rfl⟩
    | exact returns_bind fun _ ↦ returns_pure ⟨_, rfl⟩
    | exact returns_bind fun _ ↦ returns_bind fun _ ↦ returns_pure ⟨_, rfl⟩

/-- A phrase for which nothing is written has a value of its own. -/
theorem returns_keep_of_isBlank {p : Production} (h : p.isBlank = true) (origin : Provenance)
    (txnFlag? : Option Char) :
    Returns (H := H) (fun plan ↦ ∃ v, plan = .keep v) (p.plan origin txnFlag?) := by
  cases p <;> first
    | cases h; done
    | exact returns_pure ⟨_, rfl⟩

theorem returns_posting_quiet {origin : Provenance} {txnFlag? : Option Char} {totalPrice : Bool}
    {parts : Take H (Option H × Option H)} :
    Returns (Plan.Quiet) (posting origin txnFlag? totalPrice parts) := by
  unfold posting
  split
  · exact returns_bind fun _ ↦ returns_bind fun _ ↦ returns_bind fun _ ↦ returns_bind fun _ ↦
      returns_pure trivial
  · exact returns_throw

/-- Only the productions of forms out of use warn. -/
theorem returns_quiet {p : Production} (h : p.warns = false) (origin : Provenance)
    (txnFlag? : Option Char) : Returns (H := H) Plan.Quiet (p.plan origin txnFlag?) := by
  cases p
  case fieldPipe | lotListSlash => cases h
  case postingBare | postingUnits | postingPerUnitPrice | postingTotalPrice =>
    exact returns_posting_quiet
  all_goals
    repeat' first
      | exact returns_pure trivial
      | refine returns_bind fun _ ↦ ?_

section Reduce

variable (i : Interpretation H ε σ ω) (ctx : Context) {p : Production}

/-- Where a value is made without asking for anything, nothing is refused. -/
theorem not_rejected_of_keep
    (h : ∀ origin txnFlag?, Returns (H := H) (fun plan ↦ ∃ v, plan = .keep v)
      (p.plan origin txnFlag?)) (red : Reduction (Value H)) (s : Session σ) (message : String) :
    ((reducer i ctx).reduce p red s).1 ≠ .rejected message := by
  intro hrejected
  simp only [reducer] at hrejected
  split at hrejected
  · cases hrejected
  · rename_i plan args hrun
    obtain ⟨v, rfl⟩ := h _ _ _ _ _ hrun
    cases hrejected

/-- Where declarations are put together nothing is refused. -/
theorem not_rejected_of_gathers (h : p.gathers = true) (red : Reduction (Value H)) (s : Session σ)
    (message : String) : ((reducer i ctx).reduce p red s).1 ≠ .rejected message :=
  not_rejected_of_keep i ctx (returns_keep h) red s message

theorem not_rejected_of_isBlank (h : p.isBlank = true) (red : Reduction (Value H)) (s : Session σ)
    (message : String) : ((reducer i ctx).reduce p red s).1 ≠ .rejected message :=
  not_rejected_of_keep i ctx (returns_keep_of_isBlank h) red s message

end Reduce

/-! ## Carrying out a plan -/

theorem perform_measure_ok (i : Interpretation H ε σ ω) {origin : Provenance} {s : Session σ}
    {c : Construction H} {tolerance? : Option H} {a : H} {state : σ}
    (h : i.construct c s.state = (.ok a, state)) :
    s.perform i origin (.measure c tolerance?) =
      (.value (.pair a tolerance?), { s with state }) := by
  simp [Session.perform, h]

theorem perform_measure_error (i : Interpretation H ε σ ω) {origin : Provenance} {s : Session σ}
    {c : Construction H} {tolerance? : Option H} {reason : ε} {state : σ}
    (h : i.construct c s.state = (.error reason, state)) :
    s.perform i origin (.measure c tolerance?) =
      (.rejected (i.message reason), { s with state }.releaseAll i tolerance?.toList) := by
  simp [Session.perform, h]

end PlainLedger.Language
