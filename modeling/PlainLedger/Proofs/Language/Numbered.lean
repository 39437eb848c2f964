import PlainLedger.Proofs.Language.Image
import PlainLedger.Proofs.Language.Spending

/-!
# Numbered objects

Objects that are numbered in the order in which they are made can be told from each other, even if
they are equal. The numbering keeps a record of what becomes of every object, and is otherwise
without effect. An object that is in one place at first goes from there into one call, or is
dropped.
-/

namespace PlainLedger.Language

variable {H ε σ ω : Type}

/-- An object and its number. -/
structure Numbered (H : Type) where
  number : Nat
  object : H

/-- What becomes of numbered objects. -/
inductive Passage where
  | made (n : Nat)
  /-- The objects go into one call. -/
  | moved (ns : List Nat)
  | dropped (n : Nat)

namespace Passage

def made? : Passage → Option Nat
  | made n => some n
  | _ => none

def moves : Passage → List Nat
  | moved ns => ns
  | _ => []

def drops : Passage → List Nat
  | dropped n => [n]
  | _ => []

end Passage

/-- What an interpretation remembers, and what has become of the objects that it made. -/
structure Numbering (σ : Type) where
  state : σ
  /-- The number of the next object. -/
  next : Nat := 0
  passages : List Passage := []

namespace Numbering

variable (s : Numbering σ)

def pass (p : Passage) : Numbering σ := { s with passages := s.passages ++ [p] }

def made : List Nat := s.passages.filterMap Passage.made?

def moved : List Nat := s.passages.flatMap Passage.moves

def dropped : List Nat := s.passages.flatMap Passage.drops

/-- Each object has its own number and is in one place: it has gone into one call, or it has been
dropped, or it is one of those `held`. It went there after it was made. -/
structure Sound (s : Numbering σ) (held : List Nat) : Prop where
  made : s.made = List.range s.next
  places : (List.range s.next).Perm (s.moved ++ s.dropped ++ held)
  later : ∀ before p after, s.passages = before ++ p :: after →
    ∀ n ∈ p.moves ++ p.drops, n ∈ before.filterMap Passage.made?

end Numbering

/-- The interpretation with numbered objects. -/
def Interpretation.numbered (i : Interpretation H ε σ ω) :
    Interpretation (Numbered H) ε (Numbering σ) ω where
  construct c s :=
    let (answer, state) := i.construct (c.map Numbered.object) s.state
    let s := { s with state }.pass (.moved (c.handles.map Numbered.number))
    match answer with
    | .ok h => (.ok ⟨s.next, h⟩, { s with next := s.next + 1 }.pass (.made s.next))
    | .error reason => (.error reason, s)
  declare d s :=
    let (answer, state) := i.declare d s.state
    (answer, { s with state })
  report d s := { s with state := i.report d s.state }
  release h s := { s with state := i.release h.object s.state }.pass (.dropped h.number)
  finish hs s :=
    let (whole, state) := i.finish (hs.map Numbered.object) s.state
    (whole, { s with state }.pass (.moved (hs.map Numbered.number)))
  message := i.message

section Construct

variable {i : Interpretation H ε σ ω} {c : Construction (Numbered H)} {s : Numbering σ} {state : σ}

/-- The numbering once the objects that a request uses up have gone into it. -/
def Numbering.moveInto (c : Construction (Numbered H)) (state : σ) (s : Numbering σ) :
    Numbering σ :=
  { s with state }.pass (.moved (c.handles.map Numbered.number))

theorem construct_numbered_ok {a : H}
    (h : i.construct (c.map Numbered.object) s.state = (.ok a, state)) :
    i.numbered.construct c s = (.ok ⟨s.next, a⟩,
      { s.moveInto c state with next := s.next + 1 }.pass (.made s.next)) := by
  simp only [Interpretation.numbered, h]
  rfl

theorem construct_numbered_error {reason : ε}
    (h : i.construct (c.map Numbered.object) s.state = (.error reason, state)) :
    i.numbered.construct c s = (.error reason, s.moveInto c state) := by
  simp only [Interpretation.numbered, h]
  rfl

end Construct

/-- Numbering changes nothing but the objects and the record. -/
theorem maps_numbered (i : Interpretation H ε σ ω) :
    i.numbered.Maps i Numbered.object Numbering.state id where
  construct c s := by
    rcases hanswer : i.construct (c.map Numbered.object) s.state with ⟨answer, state⟩
    cases answer with
    | ok a =>
      rw [construct_numbered_ok hanswer]
      rfl
    | error reason =>
      rw [construct_numbered_error hanswer]
      rfl
  declare _ _ := rfl
  report _ _ := rfl
  release _ _ := rfl
  finish _ _ := rfl
  message _ := rfl

/-- A parse with numbered objects comes to the same. -/
theorem parse_numbered (i : Interpretation H ε σ ω) (ctx : Context) (options : Options)
    (tokens : List Token) (s : Numbering σ) :
    parse i ctx options tokens s.state =
      ((parse i.numbered ctx options tokens s).1,
        (parse i.numbered ctx options tokens s).2.state) := by
  have hparse := parse_map (maps_numbered i) ctx options tokens s
  rw [Parsed.map_id] at hparse
  exact hparse

namespace Numbering

/-! ## One passage -/

section Passages

variable {s : Numbering σ} {held rest ns : List Nat}

theorem made_pass (p : Passage) : (s.pass p).made = s.made ++ p.made?.toList := by
  unfold made pass
  rw [List.filterMap_append]
  cases h : p.made? <;> simp [h]

theorem moved_pass (p : Passage) : (s.pass p).moved = s.moved ++ p.moves := by
  unfold moved pass
  rw [List.flatMap_append, List.flatMap_singleton]

theorem dropped_pass (p : Passage) : (s.pass p).dropped = s.dropped ++ p.drops := by
  unfold dropped pass
  rw [List.flatMap_append, List.flatMap_singleton]

theorem Sound.state (h : s.Sound held) (state : σ) : { s with state }.Sound held :=
  ⟨h.made, h.places, h.later⟩

theorem Sound.perm (h : s.Sound held) (hperm : held.Perm rest) : s.Sound rest :=
  ⟨h.made, h.places.trans (hperm.append_left _), h.later⟩

/-- What is held has been made. -/
theorem Sound.mem_made (h : s.Sound held) {n : Nat} (hn : n ∈ held) : n ∈ s.made := by
  rw [h.made]
  exact h.places.mem_iff.mpr (List.mem_append_right _ hn)

theorem Sound.later_pass (h : s.Sound held) {p : Passage}
    (hp : ∀ n ∈ p.moves ++ p.drops, n ∈ s.made) (before : List Passage) (q : Passage)
    (after : List Passage) (heq : (s.pass p).passages = before ++ q :: after) :
    ∀ n ∈ q.moves ++ q.drops, n ∈ before.filterMap Passage.made? := by
  rcases List.eq_nil_or_concat after with rfl | ⟨after, z, rfl⟩
  · obtain ⟨hbefore, hlast⟩ := List.append_inj' (heq : s.passages ++ [p] = before ++ [q]) rfl
    cases hlast
    rw [← hbefore]
    exact hp
  · rw [List.concat_eq_append, ← List.cons_append, ← List.append_assoc] at heq
    exact h.later before q after (List.append_inj' heq rfl).1

/-- Objects that are held go into a call. -/
theorem Sound.move (h : s.Sound (ns ++ rest)) : (s.pass (.moved ns)).Sound rest := by
  refine ⟨?_, ?_, h.later_pass fun n hn ↦ ?_⟩
  · rw [made_pass]
    exact (List.append_nil _).trans h.made
  · rw [moved_pass, dropped_pass]
    refine h.places.trans (List.perm_iff_count.mpr fun n ↦ ?_)
    simp only [Passage.moves, Passage.drops, List.count_append, List.count_nil]
    omega
  · have hns : n ∈ ns ++ [] := hn
    rw [List.append_nil] at hns
    exact h.mem_made (List.mem_append_left _ hns)

/-- An object that is held is dropped. -/
theorem Sound.drop {n : Nat} (h : s.Sound (n :: rest)) : (s.pass (.dropped n)).Sound rest := by
  refine ⟨?_, ?_, h.later_pass fun m hm ↦ ?_⟩
  · rw [made_pass]
    exact (List.append_nil _).trans h.made
  · rw [moved_pass, dropped_pass]
    refine h.places.trans (List.perm_iff_count.mpr fun m ↦ ?_)
    simp only [Passage.moves, Passage.drops, List.count_append, List.count_nil, List.count_cons]
    omega
  · have hmn : m ∈ [n] := hm
    exact h.mem_made (List.mem_singleton.mp hmn ▸ List.mem_cons_self ..)

/-- An object is made, and held. -/
theorem Sound.make (h : s.Sound held) :
    ({ s with next := s.next + 1 }.pass (.made s.next)).Sound (s.next :: held) := by
  refine ⟨?_, ?_, Sound.later_pass (s := s) h fun n hn ↦ by cases hn⟩
  · rw [made_pass]
    change s.made ++ [s.next] = List.range (s.next + 1)
    rw [h.made, List.range_succ]
  · rw [moved_pass, dropped_pass]
    change (List.range (s.next + 1)).Perm (s.moved ++ [] ++ (s.dropped ++ []) ++ s.next :: held)
    rw [List.range_succ]
    refine (h.places.append_right [s.next]).trans (List.perm_iff_count.mpr fun n ↦ ?_)
    simp only [List.count_append, List.count_nil, List.count_cons]
    omega

end Passages

end Numbering

/-! ## Calls -/

/-- The numbers of objects. -/
def numbers (hs : List (Numbered H)) : List Nat := hs.map Numbered.number

theorem numbers_append (hs hs' : List (Numbered H)) :
    numbers (hs ++ hs') = numbers hs ++ numbers hs' :=
  List.map_append

section Calls

variable {i : Interpretation H ε σ ω} {s s' : Numbering σ} {rest : List Nat}

theorem sound_construct {c : Construction (Numbered H)} {answer : Except ε (Numbered H)}
    (h : s.Sound (numbers c.handles ++ rest)) (hs' : i.numbered.construct c s = (answer, s')) :
    s'.Sound (numbers answer.toOption.toList ++ rest) ∧ s'.dropped = s.dropped := by
  rcases hresult : i.construct (c.map Numbered.object) s.state with ⟨result, state⟩
  have hmoved : (s.moveInto c state).Sound rest := (h.state state).move
  have hdropped : (s.moveInto c state).dropped = s.dropped :=
    (Numbering.dropped_pass _).trans (List.append_nil _)
  cases result with
  | error reason =>
    rw [construct_numbered_error hresult] at hs'
    cases hs'
    exact ⟨hmoved, hdropped⟩
  | ok a =>
    rw [construct_numbered_ok hresult] at hs'
    cases hs'
    refine ⟨hmoved.make, ?_⟩
    exact (Numbering.dropped_pass _).trans ((List.append_nil _).trans hdropped)

theorem sound_release {hs : List (Numbered H)} (h : s.Sound (numbers hs ++ rest)) :
    (hs.foldl (fun s x ↦ i.numbered.release x s) s).Sound rest ∧
      (hs.foldl (fun s x ↦ i.numbered.release x s) s).dropped = s.dropped ++ numbers hs := by
  induction hs generalizing s with
  | nil => exact ⟨h, (List.append_nil _).symm⟩
  | cons x hs ih =>
    have hdrop := Numbering.Sound.drop (h.state (i.release x.object s.state))
    obtain ⟨hsound, hdropped⟩ := ih hdrop
    refine ⟨hsound, hdropped.trans ?_⟩
    rw [Numbering.dropped_pass, List.append_assoc]
    rfl

theorem sound_finish {hs : List (Numbered H)} (h : s.Sound (numbers hs ++ rest)) :
    (i.numbered.finish hs s).2.Sound rest ∧ (i.numbered.finish hs s).2.dropped = s.dropped :=
  ⟨(h.state _).move, (Numbering.dropped_pass _).trans (List.append_nil _)⟩

end Calls

end PlainLedger.Language
