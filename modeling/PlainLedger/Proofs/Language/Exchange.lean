import PlainLedger.Proofs.Language.Image

/-!
# Exchanges with an interpretation

A watched interpretation writes down what it is asked and what it answers, and is otherwise the
same. What is proved of the record of a parse under it is true of the parse.
-/

namespace PlainLedger.Language

/-- A call of an interpretation, with the answer. -/
inductive Exchange (H ε : Type) where
  | construct (c : Construction H) (answer : Except ε H)
  | declare (d : Declaration) (answer : Except ε Unit)
  | report (d : Diagnostic)
  | finish (entries : List H)

namespace Exchange

variable {H ε : Type}

/-- The handle of an entry that was made. -/
def entry? : Exchange H ε → Option H
  | construct c (.ok h) => if c.isEntry then some h else none
  | _ => none

def isFinish : Exchange H ε → Bool
  | finish _ => true
  | _ => false

/-- The handles of the entries that were made, in the order of the calls. -/
def entries (xs : List (Exchange H ε)) : List H := xs.filterMap entry?

theorem entries_append (xs ys : List (Exchange H ε)) :
    entries (xs ++ ys) = entries xs ++ entries ys :=
  List.filterMap_append ..

end Exchange

variable {H ε σ ω : Type}

/-- The interpretation with a record of the exchanges with it. -/
def Interpretation.watched (i : Interpretation H ε σ ω) :
    Interpretation H ε (σ × List (Exchange H ε)) ω where
  construct c s :=
    let (answer, state) := i.construct c s.1
    (answer, (state, s.2 ++ [.construct c answer]))
  declare d s :=
    let (answer, state) := i.declare d s.1
    (answer, (state, s.2 ++ [.declare d answer]))
  report d s := (i.report d s.1, s.2 ++ [.report d])
  release h s := (i.release h s.1, s.2)
  finish entries s :=
    let (whole, state) := i.finish entries s.1
    (whole, (state, s.2 ++ [.finish entries]))
  message := i.message

/-- Watching changes nothing but the record. -/
theorem maps_watched (i : Interpretation H ε σ ω) : i.watched.Maps i id Prod.fst id where
  construct c s := by
    rw [Construction.map_id]
    have hid : ∀ answer : Except ε H, answer.map id = answer := fun answer ↦ by
      cases answer <;> rfl
    rw [hid]
    rfl
  declare _ _ := rfl
  report _ _ := rfl
  release _ _ := rfl
  finish hs s := by
    rw [List.map_id]
    rfl
  message _ := rfl

/-- A parse under the watched interpretation is the parse, with a record. -/
theorem parse_watched (i : Interpretation H ε σ ω) (ctx : Context) (options : Options)
    (tokens : List Token) (state : σ) (xs : List (Exchange H ε)) :
    (parse i.watched ctx options tokens (state, xs)).1 = (parse i ctx options tokens state).1 ∧
      (parse i.watched ctx options tokens (state, xs)).2.1 =
        (parse i ctx options tokens state).2 := by
  have hparse := parse_map (maps_watched i) ctx options tokens (state, xs)
  rw [Parsed.map_id] at hparse
  -- what is compared are the two results, and not how they come about
  have hparts : ∀ {p : Parsed ω × σ} {q : Parsed ω × σ × List (Exchange H ε)},
      p = (q.1, q.2.1) → q.1 = p.1 ∧ q.2.1 = p.2 := by
    rintro p q rfl
    exact ⟨rfl, rfl⟩
  exact hparts hparse

end PlainLedger.Language
