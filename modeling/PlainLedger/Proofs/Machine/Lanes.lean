import PlainLedger.Machine.Lanes
import PlainLedger.Proofs.Machine.Capacity

/-!
# A stack is a list with a limit

Whatever is asked of a stack, it answers like the list of its slots, which takes no more of them
than the ceiling allows. Its lanes are the columns of that list at any time, so that the state, the
value and the span of a slot are never parted, and each request does the same to all of them.
-/

namespace PlainLedger

variable {V : Type}

namespace Request

/-- A list of at most `most` slots, the topmost of them first. -/
def serveList (most : Nat) (q : Request V) (xs : List (Slot V)) : Answer V × List (Slot V) :=
  match q with
  | .push x => if xs.length = most then (.refused ⟨most⟩, xs) else (.pushed, x :: xs)
  | .pop => (.popped xs.head?, xs.tail)
  | .popN n =>
    (.taken ((xs.take n).reverse.map Slot.value) ((xs.take n).reverse.map Slot.span), xs.drop n)

theorem serveAll_append {σ : Type} (serve : Request V → σ → Answer V × σ)
    (qs rs : List (Request V)) (s : σ) :
    serveAll serve (qs ++ rs) s = ((serveAll serve qs s).1 ++
      (serveAll serve rs (serveAll serve qs s).2).1,
        (serveAll serve rs (serveAll serve qs s).2).2) := by
  induction qs generalizing s with
  | nil => simp [serveAll]
  | cons q qs ih => simp [serveAll, ih]

end Request

/-! ## The lanes of a stack -/

namespace Lanes

variable (l : Lanes V) (x : Slot V)

/-- The slot is on top of all lanes. -/
def put : Lanes V :=
  { l with
    states := l.states ++ [x.state]
    values := l.values ++ [x.value]
    spans := l.spans ++ [x.span] }

theorem run_room (β : Type) (n : Nat) : (room β n).run l =
    if n < Stack.addressable then .ok [] l else .error ⟨l.ceiling⟩ l := by
  by_cases h : n < Stack.addressable
  · simp [room, h]
  · simp only [room, h, if_false]
    rfl

theorem run_reserve (n : Nat) : (reserve n).run l =
    if n < Stack.addressable then .ok () { l with capacity := n } else .error ⟨l.ceiling⟩ l := by
  by_cases h : n < Stack.addressable <;> simp [reserve, run_room, h]

theorem run_grow : (grow (V := V)).run l =
    if l.ceiling ≤ l.capacity then .error ⟨l.ceiling⟩ l
    else (reserve (min (min (2 * l.capacity) wordMax) l.ceiling)).run l := by
  by_cases h : l.ceiling ≤ l.capacity <;> simp [grow, h]

variable {l}

theorem run_push_of_ne (h : l.states.length ≠ l.capacity) : (push x).run l = .ok () (l.put x) := by
  simp [push, h, put]

theorem run_push_of_ok {l' : Lanes V} (h : l.states.length = l.capacity)
    (hgrow : grow.run l = .ok () l') : (push x).run l = .ok () (l'.put x) := by
  simp [push, h, hgrow, put]

theorem run_push_of_error {l' : Lanes V} {o : StackOverflow} (h : l.states.length = l.capacity)
    (hgrow : grow.run l = .error o l') : (push x).run l = .error o l' := by
  simp [push, h, hgrow]

end Lanes

namespace Stack

/-- The columns of the slots, the deepest slot first. -/
def lanes (s : Stack V) : Lanes V where
  states := s.slots.reverse.map Slot.state
  values := s.slots.reverse.map Slot.value
  spans := s.slots.reverse.map Slot.span
  capacity := s.capacity
  ceiling := s.ceiling

variable {s r : Stack V}

@[simp] theorem length_states_lanes (s : Stack V) : s.lanes.states.length = s.length := by
  simp [lanes, length]

theorem put_lanes (s : Stack V) (x : Slot V) :
    s.lanes.put x = lanes { s with slots := x :: s.slots } := by
  simp [lanes, Lanes.put]

theorem run_create_lanes {initial most : Nat} (h : create initial most = .ok s) :
    Lanes.create initial most = .ok () s.lanes := by
  have hs := reserve_eq_ok h
  rw [Lanes.create, Lanes.run_reserve, if_pos]
  · rw [hs]
    rfl
  · simp only [create, reserve] at h
    split at h
    · assumption
    · cases h

/-- Below the largest word, doubling a word stops short of the ceiling just when doubling does. -/
theorem run_grow_lanes (hword : s.ceiling ≤ Lanes.wordMax) :
    Lanes.grow.run s.lanes =
      match s.grow with
      | .ok r => .ok () r.lanes
      | .error o => .error o s.lanes := by
  have hroom : min (min (2 * s.capacity) Lanes.wordMax) s.ceiling =
      min (2 * s.capacity) s.ceiling := by
    omega
  rw [Lanes.run_grow, Lanes.run_reserve]
  by_cases hfull : s.ceiling ≤ s.capacity
  · simp [grow, lanes, hfull]
  · by_cases hfits : min (2 * s.capacity) s.ceiling < addressable
    · simp only [grow, reserve, lanes, hfull, hroom, hfits, if_true, if_false]
    · simp only [grow, reserve, lanes, hfull, hroom, hfits, if_false]

theorem run_push_lanes (hword : s.ceiling ≤ Lanes.wordMax) (x : Slot V) :
    (Lanes.push x).run s.lanes =
      match s.push x with
      | .ok r => .ok () r.lanes
      | .error o => .error o s.lanes := by
  have hgrow := run_grow_lanes hword
  by_cases hlength : s.length = s.capacity
  · have hfull : s.lanes.states.length = s.lanes.capacity := by
      rw [length_states_lanes]
      exact hlength
    cases h : s.grow with
    | error o =>
      rw [h] at hgrow
      rw [Lanes.run_push_of_error x hfull hgrow]
      simp [push, hlength, h, bind, Except.bind]
    | ok r =>
      rw [h] at hgrow
      rw [Lanes.run_push_of_ok x hfull hgrow, put_lanes]
      simp [push, hlength, h, bind, Except.bind, pure, Except.pure]
  · have hroom : s.lanes.states.length ≠ s.lanes.capacity := by
      rw [length_states_lanes]
      exact hlength
    rw [Lanes.run_push_of_ne x hroom, put_lanes]
    simp [push, hlength, bind, Except.bind, pure, Except.pure]

theorem pop_lanes (s : Stack V) :
    s.lanes.pop? =
      match s.pop? with
      | some (x, r) => (some x, r.lanes)
      | .none => (.none, s.lanes) := by
  obtain ⟨slots, capacity, ceiling⟩ := s
  cases slots with
  | nil => simp [Lanes.pop?, lanes, pop?]
  | cons x rest => simp [Lanes.pop?, lanes, pop?]

/-- As the lanes are equally long, they are cut at the same slot. -/
theorem popN_lanes (s : Stack V) (n : Nat) :
    s.lanes.popN n =
      (((s.popN n).1.map Slot.value, (s.popN n).1.map Slot.span), (s.popN n).2.lanes) := by
  have hstates : s.lanes.states.length - n = s.slots.length - n := by
    rw [length_states_lanes, length]
  simp only [Lanes.popN, hstates]
  simp only [lanes, popN, List.map_reverse, List.reverse_take, List.reverse_drop, List.map_take,
    List.map_drop]

/-- The lanes of a stack serve a request as the stack does. -/
theorem serve_lanes (hword : s.ceiling ≤ Lanes.wordMax) (q : Request V) :
    Lanes.serve q s.lanes = ((serve q s).1, (serve q s).2.lanes) := by
  cases q with
  | push x =>
    rw [Lanes.serve, run_push_lanes hword]
    cases h : s.push x <;> simp [serve, h]
  | pop =>
    rw [Lanes.serve, pop_lanes]
    cases h : s.pop? <;> simp [serve, h]
  | popN n =>
    rw [Lanes.serve, popN_lanes]
    rfl

theorem grown_serve (q : Request V) (s : Stack V) : s.Grown (serve q s).2 := by
  cases q with
  | push x =>
    rw [serve]
    split
    · rename_i hpush
      exact grown_push hpush
    · exact .refl s
  | pop =>
    obtain ⟨slots, capacity, ceiling⟩ := s
    cases slots <;> exact ⟨rfl, .refl _⟩
  | popN n => exact ⟨rfl, .refl _⟩

/-- The room of a stack only ever widens. -/
theorem grown_serveAll (qs : List (Request V)) (s : Stack V) : s.Grown (s.serveAll qs).2 := by
  induction qs generalizing s with
  | nil => exact .refl s
  | cons q qs ih => exact (grown_serve q s).trans (ih (serve q s).2)

theorem widens_serveAll {done qs : List (Request V)} (h : done <+: qs) (s : Stack V) :
    (s.serveAll done).2.capacity ≤ (s.serveAll qs).2.capacity := by
  obtain ⟨rest, rfl⟩ := h
  simp only [serveAll, Request.serveAll_append]
  exact (grown_serveAll rest _).widens.le

theorem lanes_serveAll (hword : s.ceiling ≤ Lanes.wordMax) (qs : List (Request V)) :
    s.lanes.serveAll qs = ((s.serveAll qs).1, (s.serveAll qs).2.lanes) := by
  induction qs generalizing s with
  | nil => rfl
  | cons q qs ih =>
    have hrest := ih ((grown_serve q s).ceiling.trans_le hword)
    simp only [Lanes.serveAll, serveAll, Request.serveAll] at hrest ⊢
    rw [serve_lanes hword, hrest]

theorem refused_lanes (hword : s.ceiling ≤ Lanes.wordMax) {x : Slot V} {o : StackOverflow}
    {l : Lanes V} (h : (Lanes.push x).run s.lanes = .error o l) : l = s.lanes := by
  rw [run_push_lanes hword] at h
  split at h
  · cases h
  · cases h
    rfl

/-! ## Requests -/

/-- Where a stack has a place below its ceiling, there is memory for it. -/
def Grants (s : Stack V) : Prop :=
  s.length = s.capacity → s.capacity < s.ceiling → ∃ r, s.grow = .ok r

/-- The request is served as by the list of the slots, which stay within their bounds. -/
structure Serves (q : Request V) (s : Stack V) : Prop where
  answer : (serve q s).1 = (q.serveList s.ceiling s.slots).1
  slots : (serve q s).2.slots = (q.serveList s.ceiling s.slots).2
  bounded : (serve q s).2.Bounded

theorem Bounded.serves_push (h : s.Bounded) (hgrants : s.Grants) (x : Slot V) :
    s.Serves (.push x) := by
  by_cases hlt : s.length < s.ceiling
  · obtain ⟨r, hpush⟩ := h.exists_push hlt (fun hlength hless ↦ by
      obtain ⟨r, hgrow⟩ := hgrants hlength hless
      exact lt_of_grow hgrow) x
    have hserve : serve (.push x) s = (.pushed, r) := by simp [serve, hpush]
    have hlist : Request.serveList s.ceiling (.push x) s.slots = (.pushed, x :: s.slots) := by
      have hne : s.slots.length ≠ s.ceiling := hlt.ne
      simp [Request.serveList, hne]
    constructor
    · rw [hserve, hlist]
    · rw [hserve, hlist, slots_push hpush]
    · rw [hserve]
      exact (h.push hpush).1
  · have hle : s.ceiling ≤ s.slots.length := Nat.not_lt.mp hlt
    have hlength := h.length
    have hcapacity := h.capacity
    have hpush : s.push x = .error ⟨s.ceiling⟩ := by
      apply push_of_full
      · change s.slots.length = s.capacity
        omega
      · omega
    have hserve : serve (.push x) s = (.refused ⟨s.ceiling⟩, s) := by simp [serve, hpush]
    have hlist : Request.serveList s.ceiling (.push x) s.slots =
        (.refused ⟨s.ceiling⟩, s.slots) := by
      have hfull : s.slots.length = s.ceiling := by omega
      simp [Request.serveList, hfull]
    constructor
    · rw [hserve, hlist]
    · rw [hserve, hlist]
    · rwa [hserve]

theorem Bounded.serves (h : s.Bounded) (hgrants : s.Grants) (q : Request V) : s.Serves q := by
  cases q with
  | push x => exact h.serves_push hgrants x
  | pop =>
    obtain ⟨slots, capacity, ceiling⟩ := s
    cases slots with
    | nil => exact ⟨rfl, rfl, h⟩
    | cons x rest => exact ⟨rfl, rfl, h.drop 1⟩
  | popN n => exact ⟨rfl, rfl, h.drop n⟩

/-- All requests, compared with a list of at most `most` slots and with the lanes. -/
structure Served (most : Nat) (qs : List (Request V)) (s : Stack V) : Prop where
  answers : (s.serveAll qs).1 = (Request.serveAll (Request.serveList most) qs []).1
  slots : (s.serveAll qs).2.slots = (Request.serveAll (Request.serveList most) qs []).2
  lanes : s.lanes.serveAll qs = ((s.serveAll qs).1, (s.serveAll qs).2.lanes)
  refused : ∀ x o l, (Lanes.push x).run (s.serveAll qs).2.lanes = .error o l →
    l = (s.serveAll qs).2.lanes
  length : (s.serveAll qs).2.length ≤ (s.serveAll qs).2.capacity
  capacity : (s.serveAll qs).2.capacity ≤ most
  widens : ∀ done, done <+: qs → (s.serveAll done).2.capacity ≤ (s.serveAll qs).2.capacity

/-- There is memory for a stack of these depths, as far as the requests make use of it. -/
structure Reserves (initial most : Nat) (qs : List (Request V)) : Prop where
  create : ∃ s : Stack V, Stack.create initial most = .ok s
  grow : ∀ s : Stack V, Stack.create initial most = .ok s → ∀ done, done <+: qs →
    (s.serveAll done).2.Grants

theorem follows_list (h : s.Bounded) (hslots : s.slots = []) (qs : List (Request V))
    (hgrants : ∀ done, done <+: qs → (s.serveAll done).2.Grants) :
    (s.serveAll qs).1 = (Request.serveAll (Request.serveList s.ceiling) qs []).1 ∧
      (s.serveAll qs).2.slots = (Request.serveAll (Request.serveList s.ceiling) qs []).2 ∧
      (s.serveAll qs).2.Bounded := by
  induction qs using List.reverseRecOn with
  | nil => exact ⟨rfl, hslots, h⟩
  | append_singleton qs q ih =>
    have hprefix : qs <+: qs ++ [q] := List.prefix_append ..
    obtain ⟨hanswers, hlist, hbounded⟩ := ih fun done hdone ↦ hgrants done (hdone.trans hprefix)
    obtain ⟨hanswer, hslots', hbounded'⟩ := hbounded.serves (hgrants qs hprefix) q
    rw [(grown_serveAll qs s).ceiling, hlist] at hanswer hslots'
    simp only [serveAll] at hanswers hanswer hslots' hbounded' ⊢
    simp only [Request.serveAll_append, Request.serveAll]
    exact ⟨by rw [hanswers, hanswer], hslots', hbounded'⟩

/-- A stack serves requests as a list of slots does that takes no more of them than its ceiling, and
so do its lanes; a lane is never enlarged or cut without the others. -/
theorem serves_as_list (initial most : Nat) (hword : max most 1 ≤ Lanes.wordMax)
    (qs : List (Request V)) (hreserves : Reserves initial most qs) :
    ∃ s : Stack V, create initial most = .ok s ∧ Lanes.create initial most = .ok () s.lanes ∧
      s.Served (max most 1) qs := by
  obtain ⟨s, hcreate⟩ := hreserves.create
  have hbounded := bounded_create hcreate
  have hslots := slots_create hcreate
  have hceiling : s.ceiling = max most 1 := by
    rw [reserve_eq_ok hcreate]
    rfl
  obtain ⟨hanswers, hlist, hbounded'⟩ :=
    follows_list hbounded hslots qs (hreserves.grow s hcreate)
  have hceiling' := (grown_serveAll qs s).ceiling.trans hceiling
  rw [hceiling] at hanswers hlist
  refine ⟨s, hcreate, run_create_lanes hcreate, ?_⟩
  constructor
  · exact hanswers
  · exact hlist
  · exact lanes_serveAll (hceiling.trans_le hword) qs
  · exact fun x o l ↦ refused_lanes (hceiling'.trans_le hword)
  · exact hbounded'.length
  · exact hbounded'.capacity.trans_eq hceiling'
  · exact fun done hdone ↦ widens_serveAll hdone s

/-- Below what a store can address there is memory for all requests. -/
theorem reserves_of_lt {initial most : Nat} (h : max most 1 < addressable)
    (qs : List (Request V)) : Reserves initial most qs where
  create := exists_create h
  grow s hcreate done _ _ hless := by
    have hceiling : (s.serveAll done).2.ceiling = max most 1 := by
      rw [(grown_serveAll done s).ceiling, reserve_eq_ok hcreate]
      rfl
    have hfits : min (2 * (s.serveAll done).2.capacity) (s.serveAll done).2.ceiling < addressable :=
      lt_of_le_of_lt (Nat.min_le_right ..) (hceiling.trans_lt h)
    simp only [grow, reserve, Nat.not_le.mpr hless, hfits, if_true, if_false]
    exact ⟨_, rfl⟩

/-- A third slot is the last one that a stack of depth three takes, whether or not it began with
room for it. -/
theorem serves_as_list_three :
    (max 3 1 ≤ Lanes.wordMax ∧ Reserves 2 3 [.push ⟨0, (), .start⟩, .push ⟨1, (), .start⟩,
      .push ⟨2, (), .start⟩, .push ⟨3, (), .start⟩, .popN 2, .pop, .pop]) ∧
    ∃ s : Stack Unit, create 2 3 = .ok s ∧ Lanes.create 2 3 = .ok () s.lanes ∧
      s.Served (max 3 1) [.push ⟨0, (), .start⟩, .push ⟨1, (), .start⟩, .push ⟨2, (), .start⟩,
        .push ⟨3, (), .start⟩, .popN 2, .pop, .pop] := by
  have hword : max 3 1 ≤ Lanes.wordMax := by decide
  have hreserves (qs : List (Request Unit)) : Reserves 2 3 qs := reserves_of_lt (by decide) qs
  exact ⟨⟨hword, hreserves _⟩, serves_as_list 2 3 hword _ (hreserves _)⟩

end Stack

end PlainLedger
