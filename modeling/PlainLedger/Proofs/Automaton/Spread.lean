import PlainLedger.Proofs.Automaton.Exact
import PlainLedger.Proofs.Automaton.Scan

/-!
# Spreading lookaheads within a state

An item that has changed is looked at once more, and the items that it predicts are given room for
what follows it. There are only so many items, and only so much can be added to the flow of each, so
that the work runs out. By then every item has given all it has to give. The flows are the same as
those that all predictions together settle at.
-/

namespace PlainLedger

namespace Spread

variable {α : Type} {g : Grammar α} {table : FlowTable} {seeds : List (Item × Flow)}
  {s s' s'' : Spread} {i : Item} {f : Flow}

/-! ## Adding to the flow of a rule -/

/-- The item is there, with room for the flow. -/
def Room (s : Spread) (i : Item) (f : Flow) : Prop := ∃ f', (i, f') ∈ s.items ∧ f.Within f'

/-- Each item counts, and all that its flow says. -/
def weight (s : Spread) : Nat := s.items.length + (s.items.map fun x ↦ x.2.size).sum

/-- What happens to the items from one time to another: room stays, and what has changed is
remembered. -/
structure Grows (s s' : Spread) : Prop where
  room (i : Item) (f : Flow) (h : s.Room i f) : s'.Room i f
  quiet (p : Nat) (hp : p ∉ s'.work) : p ∉ s.work ∧ s'.items[p]? = s.items[p]?
  weight : s.weight + s'.work.length ≤ s'.weight + s.work.length

theorem Grows.refl (s : Spread) : Grows s s := ⟨fun _ _ h ↦ h, fun _ hp ↦ ⟨hp, rfl⟩, le_rfl⟩

theorem Grows.trans (h : Grows s s') (h' : Grows s' s'') : Grows s s'' where
  room i f hi := h'.room i f (h.room i f hi)
  quiet p hp := by
    obtain ⟨hp', hitem'⟩ := h'.quiet p hp
    obtain ⟨hp'', hitem⟩ := h.quiet p hp'
    exact ⟨hp'', hitem'.trans hitem⟩
  weight := by
    have := h.weight
    have := h'.weight
    omega

/-- What holds of the items that come from the seeds at any time. -/
structure Progress (g : Grammar α) (seeds : List (Item × Flow)) (s : Spread) : Prop where
  /-- Behind the seeds stands each rule at most once. -/
  items_eq : ∃ ks : List Nat, ks.Nodup ∧ (∀ k ∈ ks, k < g.rules.length) ∧
    s.items.map Prod.fst = seeds.map Prod.fst ++ ks.map fun k ↦ ⟨k, 0⟩
  proper : ∀ x ∈ s.items, x.2.Proper
  work_lt : ∀ p ∈ s.work, p < s.items.length

theorem progress_start (hseeds : ∀ x ∈ seeds, x.2.Proper) :
    Progress g seeds ⟨seeds, (List.range seeds.length).reverse⟩ where
  items_eq := ⟨[], by simp⟩
  proper := hseeds
  work_lt p hp := by simpa using hp

theorem Progress.length_le (h : Progress g seeds s) :
    s.items.length ≤ seeds.length + g.rules.length := by
  obtain ⟨ks, hnodup, hks, hitems⟩ := h.items_eq
  have hle : ks.length ≤ (List.range g.rules.length).length :=
    (List.subperm_of_subset hnodup fun k hk ↦ List.mem_range.mpr (hks k hk)).length_le
  have hlength := congrArg List.length hitems
  simp only [List.length_map, List.length_append, List.length_range] at hlength hle
  omega

theorem Progress.weight_le (h : Progress g seeds s) :
    s.weight ≤ (seeds.length + g.rules.length) * (Terminal.count + 2) := by
  have hsum : (s.items.map fun x ↦ x.2.size).sum ≤ s.items.length * (Terminal.count + 1) :=
    sum_map_le fun x _ ↦ x.2.size_le
  calc s.weight ≤ s.items.length + s.items.length * (Terminal.count + 1) :=
        Nat.add_le_add_left hsum _
    _ = s.items.length * (Terminal.count + 2) := by ring
    _ ≤ (seeds.length + g.rules.length) * (Terminal.count + 2) :=
        Nat.mul_le_mul_right _ h.length_le

/-- The three things that can happen when a flow is added for a rule. -/
theorem add_cases (follow : Flow) (s : Spread) (k : Nat) :
    (∃ (p : Nat) (f : Flow), s.items[p]? = some (⟨k, 0⟩, f) ∧ f.join follow = f ∧
      s.add follow k = s) ∨
    (∃ (p : Nat) (f : Flow), s.items[p]? = some (⟨k, 0⟩, f) ∧ f.join follow ≠ f ∧
      s.add follow k = ⟨s.items.set p (⟨k, 0⟩, f.join follow), p :: s.work⟩) ∨
    ((∀ x ∈ s.items, x.1 ≠ ⟨k, 0⟩) ∧
      s.add follow k = ⟨s.items ++ [(⟨k, 0⟩, follow)], s.items.length :: s.work⟩) := by
  unfold add
  split
  · rename_i i f p hfind
    have hi : i = ⟨k, 0⟩ := by simpa using List.find?_some hfind
    have hp : s.items[p]? = some (i, f) := by
      have hmem := List.mem_of_find?_eq_some hfind
      simpa [List.mem_zipIdx_iff_getElem?] using hmem
    subst hi
    split
    · rename_i hjoin
      exact Or.inl ⟨p, f, hp, hjoin, rfl⟩
    · rename_i hjoin
      exact Or.inr (Or.inl ⟨p, f, hp, hjoin, rfl⟩)
  · rename_i hfind
    refine Or.inr (Or.inr ⟨fun x hx hi ↦ ?_, rfl⟩)
    obtain ⟨p, hp⟩ := List.mem_iff_getElem?.mp hx
    have hmem : (x, p) ∈ s.items.zipIdx.reverse := by
      rw [List.mem_reverse, List.mem_zipIdx_iff_getElem?]
      exact hp
    simpa [hi] using List.find?_eq_none.mp hfind _ hmem

theorem room_add (follow : Flow) (s : Spread) (k : Nat) : (s.add follow k).Room ⟨k, 0⟩ follow := by
  rcases add_cases follow s k with ⟨p, f, hp, hjoin, heq⟩ | ⟨p, f, hp, -, heq⟩ | ⟨-, heq⟩
  · rw [heq]
    refine ⟨f, List.mem_of_getElem? hp, ?_⟩
    rw [← hjoin]
    exact Flow.within_join_right ..
  · rw [heq]
    refine ⟨f.join follow, ?_, Flow.within_join_right ..⟩
    exact List.mem_set (List.getElem?_eq_some_iff.mp hp).1 _
  · rw [heq]
    exact ⟨follow, List.mem_append_right _ (List.mem_singleton.mpr rfl), .refl _⟩

theorem forall₂_set {β : Type} {R : β → β → Prop} {xs : List β} {p : Nat} {x y : β}
    (hp : xs[p]? = some x) (hrefl : ∀ z ∈ xs, R z z) (hxy : R x y) :
    List.Forall₂ R xs (xs.set p y) := by
  refine List.forall₂_iff_get.mpr ⟨(List.length_set ..).symm, fun q hq _ ↦ ?_⟩
  by_cases hpq : p = q
  · subst hpq
    rw [List.getElem?_eq_getElem hq, Option.some.injEq] at hp
    simpa [hp] using hxy
  · simpa [List.getElem_set_ne hpq] using hrefl _ (List.getElem_mem hq)

theorem Progress.add (h : Progress g seeds s) {k : Nat} (hk : k < g.rules.length) {follow : Flow}
    (hfollow : follow.Proper) : Progress g seeds (s.add follow k) := by
  obtain ⟨ks, hnodup, hks, hitems⟩ := h.items_eq
  rcases add_cases follow s k with ⟨p, f, hp, -, heq⟩ | ⟨p, f, hp, -, heq⟩ | ⟨hnew, heq⟩
  · rwa [heq]
  · have hlt := (List.getElem?_eq_some_iff.mp hp).1
    rw [heq]
    constructor
    · refine ⟨ks, hnodup, hks, ?_⟩
      have hkey : (s.items.map Prod.fst)[p]? = some ⟨k, 0⟩ := by
        rw [List.getElem?_map, hp]
        rfl
      obtain ⟨hplace, hkey⟩ := List.getElem?_eq_some_iff.mp hkey
      rw [← hitems, List.map_set, ← hkey]
      exact List.set_getElem_self hplace
    · intro x hx
      rcases List.mem_or_eq_of_mem_set hx with hx | rfl
      · exact h.proper x hx
      · exact (h.proper _ (List.mem_of_getElem? hp)).join hfollow
    · intro q hq
      rw [List.length_set]
      rcases List.mem_cons.mp hq with rfl | hq
      · exact hlt
      · exact h.work_lt q hq
  · rw [heq]
    constructor
    · refine ⟨ks ++ [k], ?_, ?_, by simp [hitems]⟩
      · have hfresh : k ∉ ks := by
          intro hmem
          have hkey : (⟨k, 0⟩ : Item) ∈ s.items.map Prod.fst := by
            rw [hitems]
            exact List.mem_append_right _ (List.mem_map_of_mem hmem)
          obtain ⟨x, hx, hi⟩ := List.mem_map.mp hkey
          exact hnew x hx hi
        rw [List.nodup_append]
        refine ⟨hnodup, List.nodup_singleton k, fun m hm m' hm' ↦ ?_⟩
        rw [List.mem_singleton.mp hm']
        exact ne_of_mem_of_not_mem hm hfresh
      · intro m hm
        rcases List.mem_append.mp hm with hm | hm
        · exact hks m hm
        · rwa [List.mem_singleton.mp hm]
    · intro x hx
      rcases List.mem_append.mp hx with hx | hx
      · exact h.proper x hx
      · rw [List.mem_singleton.mp hx]
        exact hfollow
    · intro q hq
      rw [List.length_append, List.length_singleton]
      rcases List.mem_cons.mp hq with rfl | hq
      · exact Nat.lt_succ_self _
      · exact Nat.lt_succ_of_lt (h.work_lt q hq)

theorem Progress.grows_add (h : Progress g seeds s) {follow : Flow} (hfollow : follow.Proper)
    (k : Nat) : Grows s (s.add follow k) := by
  rcases add_cases follow s k with ⟨p, f, hp, -, heq⟩ | ⟨p, f, hp, hjoin, heq⟩ | ⟨-, heq⟩
  · rw [heq]
    exact .refl s
  · have hlt := (List.getElem?_eq_some_iff.mp hp).1
    have hproper : f.Proper := h.proper _ (List.mem_of_getElem? hp)
    rw [heq]
    constructor
    · rintro i f₀ ⟨f₁, hmem, hwithin⟩
      obtain ⟨q, hq⟩ := List.mem_iff_getElem?.mp hmem
      by_cases hpq : p = q
      · subst hpq
        cases hp.symm.trans hq
        exact ⟨_, List.mem_set hlt _, hwithin.trans (Flow.within_join_left ..)⟩
      · rw [← List.getElem?_set_ne hpq] at hq
        exact ⟨f₁, List.mem_of_getElem? hq, hwithin⟩
    · intro q hq
      rw [List.mem_cons, not_or] at hq
      exact ⟨hq.2, List.getElem?_set_ne (Ne.symm hq.1)⟩
    · have hrises : List.Forall₂ Flow.Rises s.items (s.items.set p (⟨k, 0⟩, f.join follow)) :=
        forall₂_set hp (fun x hx ↦ ⟨rfl, h.proper x hx, h.proper x hx, .refl _⟩)
          ⟨rfl, hproper, hproper.join hfollow, Flow.within_join_left f follow⟩
      have hne : s.items.set p (⟨k, 0⟩, f.join follow) ≠ s.items := by
        intro hsame
        have hget : (s.items.set p (⟨k, 0⟩, f.join follow))[p]? = some (⟨k, 0⟩, f.join follow) :=
          List.getElem?_set_self hlt
        rw [hsame, hp, Option.some.injEq, Prod.mk.injEq] at hget
        exact hjoin hget.2.symm
      have hmore := Flow.grows_rises.list.lt hrises hne
      simp only [weight, List.length_set, List.length_cons]
      omega
  · rw [heq]
    constructor
    · rintro i f₀ ⟨f₁, hmem, hwithin⟩
      exact ⟨f₁, List.mem_append_left _ hmem, hwithin⟩
    · intro q hq
      rw [List.mem_cons, not_or] at hq
      refine ⟨hq.2, ?_⟩
      rcases Nat.lt_or_gt_of_ne hq.1 with hlt | hgt
      · exact List.getElem?_append_left hlt
      · rw [List.getElem?_eq_none hgt.le, List.getElem?_eq_none]
        simpa using hgt
    · simp only [weight, List.map_append, List.sum_append, List.map_singleton, List.sum_singleton,
        List.length_append, List.length_cons, List.length_nil]
      omega

/-! ## Looking at an item -/

/-- The rules at the mark of the item have room for what follows the mark. -/
def Settled (g : Grammar α) (table : FlowTable) (s : Spread) (i : Item) (f : Flow) : Prop :=
  ∀ n rest, g.afterDot i = .nonterminal n :: rest → ∀ k ∈ g.rulesOf n,
    s.Room ⟨k, 0⟩ ((table.ofSymbols rest).andThen f)

theorem Grows.settled (h : Grows s s') (hi : Settled g table s i f) : Settled g table s' i f :=
  fun n rest hdot k hk ↦ h.room _ _ (hi n rest hdot k hk)

theorem lt_of_mem_rulesOf {n k : Nat} (hk : k ∈ g.rulesOf n) : k < g.rules.length := by
  obtain ⟨r, hr, -⟩ := g.mem_rulesOf.mp hk
  exact (List.getElem?_eq_some_iff.mp hr).1

theorem Progress.look (htable : table.Proper) (h : Progress g seeds s) (hf : f.Proper) (i : Item) :
    Progress g seeds (s.look g table i f) ∧ Grows s (s.look g table i f) ∧
      Settled g table (s.look g table i f) i f := by
  unfold Spread.look
  split
  · rename_i n rest hdot
    have hfollow := (htable.ofSymbols rest).andThen hf
    obtain ⟨hall, heach⟩ := foldl_between
      (R := fun s s' ↦ Progress g seeds s → Progress g seeds s' ∧ Grows s s')
      (fun s h ↦ ⟨h, .refl s⟩)
      (fun hab hbc ha ↦ ⟨(hbc (hab ha).1).1, (hab ha).2.trans (hbc (hab ha).1).2⟩)
      (g.rulesOf n) (fun s k hk h ↦ ⟨h.add (lt_of_mem_rulesOf hk) hfollow, h.grows_add hfollow k⟩) s
    refine ⟨(hall h).1, (hall h).2, fun m rest' hdot' k hk ↦ ?_⟩
    cases hdot.symm.trans hdot'
    obtain ⟨between, hbefore, hafter⟩ := heach k hk
    have hadded := (hbefore h).1.add (lt_of_mem_rulesOf hk) hfollow
    exact (hafter hadded).2.room _ _ (room_add _ between k)
  · rename_i hnone
    exact ⟨h, .refl s, fun n rest hdot ↦ (hnone n rest hdot).elim⟩

/-- An item that has been looked at since it changed has given all it has to give. -/
def Quiet (g : Grammar α) (table : FlowTable) (s : Spread) : Prop :=
  ∀ (p : Nat) (i : Item) (f : Flow), p ∉ s.work → s.items[p]? = some (i, f) →
    Settled g table s i f

theorem quiet_start : Quiet g table ⟨seeds, (List.range seeds.length).reverse⟩ := by
  intro p i f hp hi
  have hlt := (List.getElem?_eq_some_iff.mp hi).1
  exact (hp (by simpa using hlt)).elim

/-! ## The whole run -/

theorem next_of_nil (h : s.work = []) : s.next g table = .some none := by
  rw [next, h]

theorem next_of_cons {p : Nat} {work : List Nat} (h : s.work = p :: work)
    (hi : s.items[p]? = some (i, f)) :
    s.next g table = .some (some (look g table ⟨s.items, work⟩ i f)) := by
  simp [next, h, hi]

/-- A step that finds nothing to do has found no work. -/
theorem Progress.work_eq_nil (h : Progress g seeds s) (hlast : s.next g table = .some none) :
    s.work = [] := by
  rcases hwork : s.work with _ | ⟨p, work⟩
  · rfl
  · have hp : p < s.items.length := h.work_lt p (by rw [hwork]; exact List.mem_cons_self ..)
    rw [next_of_cons hwork (List.getElem?_eq_getElem hp)] at hlast
    cases Part.some_injective hlast

theorem Quiet.look {p : Nat} {work : List Nat} (h : Quiet g table s) (hwork : s.work = p :: work)
    (hi : s.items[p]? = some (i, f)) (hgrows : Grows ⟨s.items, work⟩ s')
    (hsettled : Settled g table s' i f) : Quiet g table s' := by
  intro q j f' hq hj
  obtain ⟨hqwork, hsame⟩ := hgrows.quiet q hq
  rw [hsame] at hj
  by_cases hqp : q = p
  · subst hqp
    cases hi.symm.trans hj
    exact hsettled
  · have hquiet : q ∉ s.work := by
      rw [hwork, List.mem_cons, not_or]
      exact ⟨hqp, hqwork⟩
    have hbefore : Settled g table ⟨s.items, work⟩ j f' := h q j f' hquiet hj
    exact hgrows.settled hbefore

/-- Everything that is kept while items are looked at holds when there is no work left. -/
theorem exists_exhaust_next (htable : table.Proper) (hseeds : ∀ x ∈ seeds, x.2.Proper)
    {Q : List (Item × Flow) → Prop} (hQ : Q seeds)
    (hlook : ∀ (s : Spread) (i : Item) (f : Flow), Q s.items → (i, f) ∈ s.items →
      Q (s.look g table i f).items) :
    ∃ s : Spread, exhaust (next g table) ⟨seeds, (List.range seeds.length).reverse⟩ = .some s ∧
      Progress g seeds s ∧ (∀ x ∈ s.items, Settled g table s x.1 x.2) ∧ Q s.items := by
  set bound := (seeds.length + g.rules.length) * (Terminal.count + 2) with hbound
  have hnext : ∀ s : Spread, Progress g seeds s ∧ Quiet g table s ∧ Q s.items →
      s.next g table = .some none ∨ ∃ s', s.next g table = .some (some s') ∧
        (Progress g seeds s' ∧ Quiet g table s' ∧ Q s'.items) ∧
        bound - s'.weight + s'.work.length < bound - s.weight + s.work.length := by
    rintro s ⟨h, hquiet, hs⟩
    rcases hwork : s.work with _ | ⟨p, work⟩
    · exact Or.inl (next_of_nil hwork)
    · have hp : p < s.items.length := h.work_lt p (by rw [hwork]; exact List.mem_cons_self ..)
      obtain ⟨⟨i, f⟩, hi⟩ : ∃ x, s.items[p]? = some x := ⟨_, List.getElem?_eq_getElem hp⟩
      have hmem := List.mem_of_getElem? hi
      have hpopped : Progress g seeds ⟨s.items, work⟩ := by
        refine ⟨h.items_eq, h.proper, fun q hq ↦ h.work_lt q ?_⟩
        rw [hwork]
        exact List.mem_cons_of_mem _ hq
      obtain ⟨h', hgrows, hsettled⟩ := hpopped.look htable (h.proper _ hmem) i
      have hweight := hgrows.weight
      have hle := h'.weight_le
      refine Or.inr ⟨_, next_of_cons hwork hi, ⟨h', hquiet.look hwork hi hgrows hsettled,
        hlook ⟨s.items, work⟩ i f hs hmem⟩, ?_⟩
      simp only [weight, List.length_cons] at hweight hle ⊢
      omega
  obtain ⟨s, hs, ⟨h, hquiet, hQs⟩, hlast⟩ :=
    exists_exhaust hnext ⟨progress_start hseeds, quiet_start, hQ⟩
  refine ⟨s, hs, h, fun x hx ↦ ?_, hQs⟩
  obtain ⟨p, hp⟩ := List.mem_iff_getElem?.mp hx
  exact hquiet p x.1 x.2 (by simp [h.work_eq_nil hlast]) hp

/-! ## The flows that the work ends with -/

/-- No two seeds are for one item, and none is for the beginning of a rule. -/
structure Distinct (g : Grammar α) (seeds : List (Item × Flow)) : Prop where
  nodup : (seeds.map Prod.fst).Nodup
  not_rule (x : Item × Flow) (hx : x ∈ seeds) (k : Nat) (hk : k < g.rules.length) : x.1 ≠ ⟨k, 0⟩

/-- The seeds are as they were, and no item says more than all predictions together. -/
structure Fair (g : Grammar α) (table : FlowTable) (seeds items : List (Item × Flow)) : Prop where
  kept : seeds <+: items
  below (x : Item × Flow) (hx : x ∈ items) :
    ∃ f, (x.1, f) ∈ g.flowClosure table seeds ∧ x.2.Within f

/-- The predictions give one flow to the rules of a nonterminal. -/
theorem Distinct.unique (hseeds : Distinct g seeds) {k : Nat} (hk : k < g.rules.length)
    {f f' : Flow} (hf : (⟨k, 0⟩, f) ∈ g.flowClosure table seeds)
    (hf' : (⟨k, 0⟩, f') ∈ g.flowClosure table seeds) : f = f' := by
  have hfollow : ∀ {f : Flow}, (⟨k, 0⟩, f) ∈ g.flowClosure table seeds →
      f = g.followOf table seeds g.rules[k].lhs := by
    intro f hf
    rcases (g.mem_flowClosure table).mp hf with hf | ⟨-, r, hr, hf⟩
    · exact (hseeds.not_rule _ hf k hk rfl).elim
    · rw [List.getElem?_eq_getElem hk, Option.some.injEq] at hr
      rw [hr]
      exact (Grammar.mem_follows.mp hf).2
  rw [hfollow hf, hfollow hf']

theorem Fair.add (hseeds : Distinct g seeds) (h : Fair g table seeds s.items) {k : Nat}
    (hk : k < g.rules.length) {follow f : Flow} (hf : (⟨k, 0⟩, f) ∈ g.flowClosure table seeds)
    (hfollow : follow.Within f) : Fair g table seeds (s.add follow k).items := by
  rcases add_cases follow s k with ⟨p, f', hp, -, heq⟩ | ⟨p, f', hp, -, heq⟩ | ⟨-, heq⟩
  · rwa [heq]
  · rw [heq]
    constructor
    · obtain ⟨others, hothers⟩ := h.kept
      have hbehind : seeds.length ≤ p := by
        by_contra hlt
        rw [← hothers, List.getElem?_append_left (not_le.mp hlt)] at hp
        exact hseeds.not_rule _ (List.mem_of_getElem? hp) k hk rfl
      rw [← hothers, List.set_append_right _ _ hbehind]
      exact List.prefix_append ..
    · intro x hx
      rcases List.mem_or_eq_of_mem_set hx with hx | rfl
      · exact h.below x hx
      · obtain ⟨f'', hf'', hwithin⟩ := h.below _ (List.mem_of_getElem? hp)
        cases hseeds.unique hk hf hf''
        exact ⟨f, hf, hwithin.join hfollow⟩
  · rw [heq]
    constructor
    · exact h.kept.trans (List.prefix_append ..)
    · intro x hx
      rcases List.mem_append.mp hx with hx | hx
      · exact h.below x hx
      · rw [List.mem_singleton.mp hx]
        exact ⟨f, hf, hfollow⟩

theorem Fair.look (hg : g.Closed) (htable : table.Proper) (hproper : ∀ x ∈ seeds, x.2.Proper)
    (hseeds : Distinct g seeds) (h : Fair g table seeds s.items) (hi : (i, f) ∈ s.items) :
    Fair g table seeds (s.look g table i f).items := by
  unfold Spread.look
  split
  · rename_i n rest hdot
    obtain ⟨f', hf', hwithin⟩ := h.below _ hi
    refine List.foldlRecOn (motive := fun s : Spread ↦ Fair g table seeds s.items) _ _ h ?_
    intro s h k hk
    obtain ⟨r, hr, hlhs⟩ := g.mem_rulesOf.mp hk
    rw [← hlhs] at hdot
    obtain ⟨f'', hf'', hroom⟩ :=
      Grammar.exists_flowClosure_of_next hg htable hproper hf' hdot hr
    exact h.add hseeds (lt_of_mem_rulesOf hk) hf'' (.trans (.andThen (.refl _) hwithin) hroom)
  · exact h

theorem Progress.unique (h : Progress g seeds s) (hseeds : Distinct g seeds) {f' : Flow}
    (hf : (i, f) ∈ s.items) (hf' : (i, f') ∈ s.items) : f = f' := by
  obtain ⟨ks, hnodup, hks, hitems⟩ := h.items_eq
  have hrules : (ks.map fun k ↦ (⟨k, 0⟩ : Item)).Nodup :=
    hnodup.map fun _ _ heq ↦ congrArg Item.rule heq
  have hkeys : (s.items.map Prod.fst).Nodup := by
    rw [hitems, List.nodup_append]
    refine ⟨hseeds.nodup, hrules, fun j hj j' hj' ↦ ?_⟩
    obtain ⟨x, hx, rfl⟩ := List.mem_map.mp hj
    obtain ⟨k, hk, rfl⟩ := List.mem_map.mp hj'
    exact hseeds.not_rule x hx k (hks k hk)
  exact congrArg Prod.snd (List.inj_on_of_nodup_map hkeys hf hf' rfl)

section Given

variable (hgiven : ∀ x ∈ s.items, Settled g table s x.1 x.2) (hkept : seeds ⊆ s.items)

include hgiven hkept

/-- The rules of all predicted nonterminals have come up. -/
theorem exists_of_mem_predicted : ∀ n ∈ g.predicted (seeds.map Prod.fst), ∀ k ∈ g.rulesOf n,
    ∃ f, (⟨k, 0⟩, f) ∈ s.items := by
  have hnext : ∀ x ∈ s.items, ∀ n, g.next? x.1 = some (.nonterminal n) →
      ∀ k ∈ g.rulesOf n, ∃ f, (⟨k, 0⟩, f) ∈ s.items := by
    intro x hx n hnext k hk
    obtain ⟨rest, hdot⟩ := List.head?_eq_some_iff.mp hnext
    obtain ⟨f, hf, -⟩ := hgiven x hx n rest hdot k hk
    exact ⟨f, hf⟩
  rw [Grammar.predicted_eq]
  refine settle_induction (P := fun ns : List Nat ↦
    ∀ n ∈ ns, ∀ k ∈ g.rulesOf n, ∃ f, (⟨k, 0⟩, f) ∈ s.items) ?_ _ ?_
  · intro ns hns n hn k hk
    rcases g.mem_predictMore.mp hn with hn | ⟨m, hm, hn⟩
    · exact hns n hn k hk
    · obtain ⟨r, hr, hlhs, hhead⟩ := g.mem_leading.mp hn
      obtain ⟨l, hl⟩ := List.mem_iff_getElem?.mp hr
      obtain ⟨f, hf⟩ := hns m hm l (g.mem_rulesOf.mpr ⟨r, hl, hlhs⟩)
      exact hnext _ hf n ((g.next?_zero hl).trans hhead) k hk
  · intro n hn k hk
    obtain ⟨i, hi, hmark⟩ := g.mem_marked.mp (Ordered.mem_ofList.mp hn)
    obtain ⟨x, hx, rfl⟩ := List.mem_map.mp hi
    exact hnext x (hkept hx) n hmark k hk

/-- What all predictions together say about a nonterminal, its rules have room for. -/
theorem within_of_mem_follows (h : Progress g seeds s) (hseeds : Distinct g seeds) :
    ∀ x ∈ g.follows table seeds, ∀ k ∈ g.rulesOf x.1, ∀ f, (⟨k, 0⟩, f) ∈ s.items →
      x.2.Within f := by
  have hroom : ∀ {k : Nat} {f f' : Flow}, s.Room ⟨k, 0⟩ f → (⟨k, 0⟩, f') ∈ s.items →
      f.Within f' := by
    rintro k f f' ⟨f'', hf'', hwithin⟩ hf'
    rwa [h.unique hseeds hf' hf'']
  refine settle_induction (P := fun fs : List (Nat × Flow) ↦ ∀ x ∈ fs, ∀ k ∈ g.rulesOf x.1,
    ∀ f, (⟨k, 0⟩, f) ∈ s.items → x.2.Within f) ?_ _ ?_
  · intro fs hfs x hx k hk f hf
    rw [Grammar.followStep_eq] at hx
    obtain ⟨y, hy, rfl⟩ := List.mem_map.mp hx
    refine Flow.foldl_join_induction (P := fun f' ↦ f'.Within f) _ _ (fun _ _ ↦ .join)
      (hfs y hy k hk f hf) fun p hp ↦ ?_
    obtain ⟨hp, htarget⟩ := List.mem_filter.mp hp
    obtain ⟨l, r, rest, hr, hlhs, hrhs, hsource, hflow⟩ := Grammar.mem_predictions.mp hp
    have hl : l ∈ g.rulesOf r.lhs := g.mem_rulesOf.mpr ⟨r, hr, rfl⟩
    obtain ⟨f₀, hf₀⟩ := exists_of_mem_predicted hgiven hkept r.lhs hlhs l hl
    have hsourced : ((fs.lookup p.source).getD .never).Within f₀ := by
      cases hlookup : fs.lookup p.source with
      | none => exact Flow.never_within f₀
      | some f₁ =>
        obtain ⟨l₁, l₂, rfl, -⟩ := List.lookup_eq_some_iff.mp hlookup
        exact hfs (p.source, f₁) (by simp) l (hsource ▸ hl) f₀ hf₀
    have hdot : g.afterDot ⟨l, 0⟩ = .nonterminal y.1 :: rest := by
      rw [Grammar.afterDot_zero hr, hrhs, of_decide_eq_true htarget]
    rw [hflow]
    exact .trans (.andThen (.refl _) hsourced) (hroom (hgiven _ hf₀ y.1 rest hdot k hk) hf)
  · intro x hx k hk f hf
    obtain ⟨n, -, rfl⟩ := List.mem_map.mp hx
    rw [Grammar.seedFlow_eq]
    refine Flow.foldl_join_induction (P := fun f' ↦ f'.Within f) _ _ (fun _ _ ↦ .join)
      (Flow.never_within f) fun f₀ hf₀ ↦ ?_
    obtain ⟨y, hy, hpart⟩ := List.mem_filterMap.mp hf₀
    obtain ⟨rest, hdot, rfl⟩ := Grammar.seedPart_eq_some.mp hpart
    exact hroom (hgiven y (hkept hy) n rest hdot k hk) hf

end Given

end Spread

namespace Grammar

variable {α : Type} {g : Grammar α} {table : FlowTable} {seeds : List (Item × Flow)}

/-- Whatever the seeds are, the work runs out. -/
theorem exists_spread (htable : table.Proper) (hproper : ∀ x ∈ seeds, x.2.Proper) :
    ∃ items, g.spread table seeds = .some items := by
  obtain ⟨s, hs, -⟩ := Spread.exists_exhaust_next (g := g) htable hproper (Q := fun _ ↦ True)
    trivial (fun _ _ _ _ _ ↦ trivial)
  exact ⟨s.items, by rw [spread, hs, Part.map_some]⟩

/-- From the items of a kernel the work ends with the flows that their predictions settle at. -/
theorem exists_spread_mem_iff (hg : g.Closed) (htable : table.Proper)
    (hproper : ∀ x ∈ seeds, x.2.Proper) (hseeds : Spread.Distinct g seeds) :
    ∃ items, g.spread table seeds = .some items ∧
      ∀ x, x ∈ items ↔ x ∈ g.flowClosure table seeds := by
  have hstart : Spread.Fair g table seeds seeds := by
    refine ⟨List.prefix_rfl, fun x hx ↦ ⟨x.2, ?_, .refl _⟩⟩
    exact (g.mem_flowClosure table).mpr (Or.inl hx)
  obtain ⟨s, hs, h, hgiven, hfair⟩ := Spread.exists_exhaust_next htable hproper hstart
    fun _ _ _ hfair hi ↦ hfair.look hg htable hproper hseeds hi
  refine ⟨s.items, by rw [spread, hs, Part.map_some], ?_⟩
  have hkept : seeds ⊆ s.items := hfair.kept.subset
  have hall : ∀ x ∈ g.flowClosure table seeds, x ∈ s.items := by
    rintro ⟨i, f⟩ hx
    rcases (g.mem_flowClosure table).mp hx with hi | ⟨hdot, r, hr, hf⟩
    · exact hkept hi
    · obtain ⟨k, d⟩ := i
      subst hdot
      have hk : k ∈ g.rulesOf r.lhs := g.mem_rulesOf.mpr ⟨r, hr, rfl⟩
      obtain ⟨f', hf'⟩ :=
        Spread.exists_of_mem_predicted hgiven hkept r.lhs (mem_follows.mp hf).1 k hk
      have hroom := Spread.within_of_mem_follows hgiven hkept h hseeds _ hf k hk f' hf'
      obtain ⟨f'', hf'', hbelow⟩ := hfair.below _ hf'
      cases hseeds.unique (List.getElem?_eq_some_iff.mp hr).1 hx hf''
      have hx' := proper_flowClosure htable hproper hx
      have hf₀ := h.proper _ hf'
      rwa [Flow.grows_within.antisymm ⟨hx', hf₀, hroom⟩ ⟨hf₀, hx', hbelow⟩]
  refine fun x ↦ ⟨fun hx ↦ ?_, hall x⟩
  obtain ⟨f, hf, -⟩ := hfair.below x hx
  rw [show x = (x.1, f) from Prod.ext rfl (h.unique hseeds hx (hall _ hf))]
  exact hf

end Grammar

end PlainLedger
