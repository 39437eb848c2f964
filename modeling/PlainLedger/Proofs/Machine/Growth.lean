import PlainLedger.Proofs.Machine.Attentive

/-!
# Growing stacks

The room of a stack doubles when it is used up, so two stacks that began with the same room can only
have come to have rooms of the same series. A stack that has once been higher has as much room or
more; as long as both are of the same height, a slot finds room on the one if and only if it does on
the other.
-/

namespace PlainLedger

variable {V W : Type}

namespace Stack

/-- Room that room of `n` slots grows to. -/
inductive Widens (ceiling : Nat) : Nat → Nat → Prop where
  | refl (n : Nat) : Widens ceiling n n
  | grow {n m : Nat} (hlt : n < ceiling) (hfits : min (2 * n) ceiling < addressable)
      (h : Widens ceiling (min (2 * n) ceiling) m) : Widens ceiling n m

theorem Widens.le {ceiling n m : Nat} (h : Widens ceiling n m) : n ≤ m := by
  induction h with
  | refl => exact le_rfl
  | grow hlt _ _ ih => omega

theorem Widens.trans {ceiling n m k : Nat} (h : Widens ceiling n m) (h' : Widens ceiling m k) :
    Widens ceiling n k := by
  induction h with
  | refl => exact h'
  | grow hlt hfits _ ih => exact .grow hlt hfits (ih h')

/-- The second stack has come to have its room from that of the first. -/
structure Grown (s : Stack V) (s' : Stack W) : Prop where
  ceiling : s'.ceiling = s.ceiling
  widens : Widens s.ceiling s.capacity s'.capacity

/-- The second stack is as high as the first one, and its room has grown from that of the first. -/
structure Under (s : Stack V) (s' : Stack W) : Prop where
  bounded : s.Bounded
  length : s'.length = s.length
  grown : s.Grown s'

variable {s : Stack V} {s' : Stack W}

theorem Grown.refl (s : Stack V) : s.Grown s := ⟨rfl, .refl _⟩

theorem Grown.trans {X : Type} {s'' : Stack X} (h : s.Grown s') (h' : s'.Grown s'') :
    s.Grown s'' := by
  refine ⟨h'.ceiling.trans h.ceiling, h.widens.trans ?_⟩
  have hwidens := h'.widens
  rwa [h.ceiling] at hwidens

theorem Under.drop (h : s.Under s') (n : Nat) :
    Under { s with slots := s.slots.drop n } { s' with slots := s'.slots.drop n } where
  bounded := h.bounded.drop n
  length := by
    have hlength : s'.slots.length = s.slots.length := h.length
    unfold Stack.length
    rw [List.length_drop, List.length_drop, hlength]
  grown := ⟨h.grown.ceiling, h.grown.widens⟩

/-- A stack cannot grow beyond what a store has room for. -/
theorem push_of_unfit (h : s.length = s.capacity) (hlt : s.capacity < s.ceiling)
    (hfits : ¬min (2 * s.capacity) s.ceiling < addressable) (x : Slot V) :
    s.push x = .error ⟨s.ceiling⟩ := by
  unfold Stack.push grow reserve
  rw [if_pos h, if_neg (Nat.not_le.mpr hlt), if_neg hfits]
  rfl

theorem grown_push {t : Stack V} {x : Slot V} (h : s.push x = .ok t) : s.Grown t := by
  by_cases hlength : s.length = s.capacity
  · by_cases hfull : s.ceiling ≤ s.capacity
    · rw [push_of_full hlength hfull] at h
      cases h
    have hlt := Nat.not_le.mp hfull
    by_cases hfits : min (2 * s.capacity) s.ceiling < addressable
    · rw [push_of_grow hlength hlt hfits] at h
      cases h
      exact ⟨rfl, .grow hlt hfits (.refl _)⟩
    · rw [push_of_unfit hlength hlt hfits] at h
      cases h
  · unfold Stack.push at h
    rw [if_neg hlength] at h
    cases h
    exact ⟨rfl, .refl _⟩

/-- A slot finds room on both stacks or on neither. -/
theorem Under.push (h : s.Under s') (x : Slot V) (y : Slot W) :
    (∃ t t', s.push x = .ok t ∧ s'.push y = .ok t' ∧ t.Under t') ∨
      ∃ o, s.push x = .error o ∧ s'.push y = .error o := by
  obtain ⟨hbounded, hlength, ⟨hceiling, hwidens⟩⟩ := h
  have hup : ∀ {t : Stack V} {t' : Stack W}, s.push x = .ok t → s'.push y = .ok t' →
      t'.ceiling = s.ceiling → Widens s.ceiling t.capacity t'.capacity → t.Under t' := by
    intro t t' ht ht' hceiling hwidens
    obtain ⟨hbounded', hsame⟩ := hbounded.push ht
    refine ⟨hbounded', ?_, ⟨hceiling.trans hsame.symm, hsame.symm ▸ hwidens⟩⟩
    unfold Stack.length at *
    rw [slots_push ht, slots_push ht', List.length_cons, List.length_cons, hlength]
  have hle := hwidens.le
  rcases hbounded.length.lt_or_eq with hlt | heq
  · have hlt' : s'.length < s'.capacity := hlength.trans_lt (hlt.trans_le hle)
    exact Or.inl ⟨_, _, push_of_lt hlt x, push_of_lt hlt' y,
      hup (push_of_lt hlt x) (push_of_lt hlt' y) hceiling hwidens⟩
  · generalize hcapacity : s'.capacity = m at hwidens
    cases hwidens with
    | refl =>
      have heq' : s'.length = s'.capacity := hlength.trans (heq.trans hcapacity.symm)
      by_cases hfull : s.ceiling ≤ s.capacity
      · have hfull' : s'.ceiling ≤ s'.capacity := by rwa [hceiling, hcapacity]
        exact Or.inr ⟨_, push_of_full heq hfull x, hceiling ▸ push_of_full heq' hfull' y⟩
      have hlt := Nat.not_le.mp hfull
      have hlt' : s'.capacity < s'.ceiling := by rwa [hceiling, hcapacity]
      by_cases hfits : min (2 * s.capacity) s.ceiling < addressable
      · have hfits' : min (2 * s'.capacity) s'.ceiling < addressable := by
          rwa [hceiling, hcapacity]
        have hpush := push_of_grow heq hlt hfits x
        have hpush' := push_of_grow heq' hlt' hfits' y
        refine Or.inl ⟨_, _, hpush, hpush', hup hpush hpush' hceiling ?_⟩
        rw [hceiling, hcapacity]
        exact .refl _
      · have hfits' : ¬min (2 * s'.capacity) s'.ceiling < addressable := by
          rwa [hceiling, hcapacity]
        exact Or.inr ⟨_, push_of_unfit heq hlt hfits x,
          hceiling ▸ push_of_unfit heq' hlt' hfits' y⟩
    | grow hgrow hfits hwidens =>
      have hpush := push_of_grow heq hgrow hfits x
      have hlt' : s'.length < s'.capacity := by
        have hpositive := hbounded.positive
        have hle' := hwidens.le
        unfold Stack.length at *
        omega
      rw [← hcapacity] at hwidens
      exact Or.inl ⟨_, _, hpush, push_of_lt hlt' y, hup hpush (push_of_lt hlt' y) hceiling hwidens⟩

end Stack

end PlainLedger
