import PlainLedger.Proofs.Automaton.Row
import PlainLedger.Proofs.Grammar.Flow

/-!
# What may follow

A terminal may follow an item where a derivation says so: the end of the text follows the whole
text, what follows an item follows it also when more of it has been read, and a predicted rule is
followed by what the rest of the predicting item begins with. All of these are found among the
lookaheads that the tables are made from, since those are the solution of their inequalities.
-/

namespace PlainLedger.Grammar

variable {α : Type} (g : Grammar α) (table : FlowTable)

/-! ## Within a state -/

/-- What an item at the mark of which the nonterminal stands adds to its flow. -/
def seedPart (n : Nat) (s : Item × Flow) : Option Flow :=
  match g.afterDot s.1 with
  | .nonterminal m :: rest => if m = n then some ((table.ofSymbols rest).andThen s.2) else none
  | _ => none

theorem seedFlow_eq (seeds : List (Item × Flow)) (n : Nat) :
    g.seedFlow table seeds n =
      (seeds.filterMap (g.seedPart table n)).foldl (fun f h ↦ f.join h) .never := by
  unfold seedFlow
  rw [List.foldl_filterMap]
  congr 1
  funext f s
  rcases hdot : g.afterDot s.1 with _ | ⟨t | m, rest⟩
  · simp [seedPart, hdot]
  · simp [seedPart, hdot]
  · by_cases hm : m = n <;> simp [seedPart, hdot, hm]

variable {g table}

theorem seedPart_eq_some {n : Nat} {s : Item × Flow} {f : Flow} :
    g.seedPart table n s = some f ↔
      ∃ rest, g.afterDot s.1 = .nonterminal n :: rest ∧ f = (table.ofSymbols rest).andThen s.2 := by
  unfold seedPart
  constructor
  · intro h
    split at h
    · rename_i m rest hdot
      split at h
      · rename_i hm
        exact ⟨rest, hm ▸ hdot, (Option.some.inj h).symm⟩
      · cases h
    · cases h
  · rintro ⟨rest, hdot, rfl⟩
    rw [hdot]
    simp

theorem mem_predictions {ns : List Nat} {p : Prediction} :
    p ∈ g.predictions table ns ↔
      ∃ (k : Nat) (r : Rule α) (rest : List Symbol), g.rules[k]? = some r ∧ r.lhs ∈ ns ∧
      r.rhs = .nonterminal p.target :: rest ∧ p.source = r.lhs ∧ p.flow = table.ofSymbols rest := by
  simp only [predictions, List.mem_flatMap, List.mem_filterMap, mem_rulesOf]
  constructor
  · rintro ⟨n, hn, k, ⟨r, hr, rfl⟩, hp⟩
    rw [g.rhs_of_getElem? hr] at hp
    split at hp
    · rename_i m rest hrhs
      cases Option.some.inj hp
      exact ⟨k, r, rest, hr, hn, hrhs, rfl, rfl⟩
    · cases hp
  · rintro ⟨k, r, rest, hr, hn, hrhs, hsource, hflow⟩
    refine ⟨r.lhs, hn, k, ⟨r, hr, rfl⟩, ?_⟩
    rw [g.rhs_of_getElem? hr, hrhs]
    cases p
    cases hsource
    cases hflow
    rfl

variable (g table)

/-- What may follow a nonterminal that the seeds predict. -/
def followOf (seeds : List (Item × Flow)) (n : Nat) : Flow :=
  ((g.follows table seeds).lookup n).getD .never

/-- One round of the flows within a state, for one nonterminal. -/
def stepFlow (ps : List Prediction) (fs : List (Nat × Flow)) (n : Nat) (f : Flow) : Flow :=
  (ps.filter fun p ↦ decide (p.target = n)).foldl
    (fun f p ↦ f.join (p.flow.andThen ((fs.lookup p.source).getD .never))) f

theorem followStep_eq (ps : List Prediction) (fs : List (Nat × Flow)) :
    followStep ps fs = fs.map fun x ↦ (x.1, stepFlow ps fs x.1 x.2) := by
  unfold followStep
  refine List.map_congr_left ?_
  rintro ⟨n, f⟩ -
  simp [stepFlow, List.foldl_filter]

variable {g table}

theorem proper_lookup {fs : List (Nat × Flow)} (h : ∀ x ∈ fs, x.2.Proper) (n : Nat) :
    ((fs.lookup n).getD .never).Proper := by
  cases hn : fs.lookup n with
  | none => exact TerminalSet.proper_empty
  | some f =>
    obtain ⟨l₁, l₂, rfl, -⟩ := List.lookup_eq_some_iff.mp hn
    exact h (n, f) (by simp)

theorem proper_stepFlow (htable : table.Proper) {ns : List Nat} {fs : List (Nat × Flow)}
    (h : ∀ x ∈ fs, x.2.Proper) {x : Nat × Flow} (hx : x ∈ fs) :
    (stepFlow (g.predictions table ns) fs x.1 x.2).Proper := by
  refine Flow.foldl_join_induction _ _ (fun _ _ ↦ .join) (h x hx) ?_
  intro p hp
  obtain ⟨k, r, rest, -, -, -, -, hflow⟩ := mem_predictions.mp (List.mem_filter.mp hp).1
  rw [hflow]
  exact (htable.ofSymbols rest).andThen (proper_lookup h p.source)

theorem proper_seedFlow (htable : table.Proper) {seeds : List (Item × Flow)}
    (hseeds : ∀ s ∈ seeds, s.2.Proper) (n : Nat) : (g.seedFlow table seeds n).Proper := by
  rw [seedFlow_eq]
  refine Flow.foldl_join_induction _ _ (fun _ _ ↦ .join) TerminalSet.proper_empty ?_
  intro f hf
  obtain ⟨s, hs, hpart⟩ := List.mem_filterMap.mp hf
  obtain ⟨rest, -, rfl⟩ := seedPart_eq_some.mp hpart
  exact (htable.ofSymbols rest).andThen (hseeds s hs)

section Follows

variable {seeds : List (Item × Flow)}

theorem proper_follows (htable : table.Proper) (hseeds : ∀ s ∈ seeds, s.2.Proper) :
    ∀ x ∈ g.follows table seeds, x.2.Proper := by
  refine settle_induction (P := fun fs : List (Nat × Flow) ↦ ∀ x ∈ fs, x.2.Proper) ?_ _ ?_
  · intro fs h x hx
    rw [followStep_eq] at hx
    obtain ⟨y, hy, rfl⟩ := List.mem_map.mp hx
    exact proper_stepFlow htable h hy
  · intro x hx
    obtain ⟨n, -, rfl⟩ := List.mem_map.mp hx
    exact proper_seedFlow htable hseeds n

/-- What may follow the predicted nonterminals is settled. -/
theorem followStep_follows (htable : table.Proper) (hseeds : ∀ s ∈ seeds, s.2.Proper) :
    followStep (g.predictions table (g.predicted (seeds.map Prod.fst))) (g.follows table seeds) =
      g.follows table seeds := by
  set ns := g.predicted (seeds.map Prod.fst) with hns
  refine step_settle_of_grows
    (P := fun fs : List (Nat × Flow) ↦ fs.length = ns.length ∧ ∀ x ∈ fs, x.2.Proper)
    Flow.grows_rises ?_ ?_ ?_ ?_ (Nat.lt_succ_self _)
  · rintro fs ⟨hlength, hproper⟩
    rw [followStep_eq]
    refine ⟨(List.length_map _).trans hlength, ?_⟩
    intro x hx
    obtain ⟨y, hy, rfl⟩ := List.mem_map.mp hx
    exact proper_stepFlow htable hproper hy
  · rintro fs ⟨-, hproper⟩
    rw [followStep_eq]
    refine List.forall₂_map_right_iff.mpr (List.forall₂_same.mpr fun x hx ↦ ?_)
    exact ⟨rfl, hproper x hx, proper_stepFlow htable hproper hx,
      (Flow.within_foldl_join _ _ _).1⟩
  · rintro fs ⟨hlength, -⟩
    rw [← hlength]
    exact sum_map_le fun x _ ↦ x.2.size_le
  · refine ⟨List.length_map _, ?_⟩
    intro x hx
    obtain ⟨n, -, rfl⟩ := List.mem_map.mp hx
    exact proper_seedFlow htable hseeds n

/-- With different keys, what a list holds is found in it. -/
theorem lookup_of_mem {β : Type} {xs : List (Nat × β)} (hnodup : (xs.map Prod.fst).Nodup) {n : Nat}
    {b : β} (h : (n, b) ∈ xs) : xs.lookup n = some b := by
  obtain ⟨l₁, l₂, rfl⟩ := List.append_of_mem h
  refine List.lookup_eq_some_iff.mpr ⟨l₁, l₂, rfl, fun x hx ↦ ?_⟩
  rw [List.map_append, List.map_cons, List.nodup_append] at hnodup
  have hne := hnodup.2.2 x.1 (List.mem_map_of_mem hx) n (List.mem_cons_self ..)
  exact bne_iff_ne.mpr hne.symm

theorem nodup_keys_follows : ((g.follows table seeds).map Prod.fst).Nodup := by
  rw [keys_follows]
  exact g.nodup_predicted _

theorem mem_follows {n : Nat} {f : Flow} :
    (n, f) ∈ g.follows table seeds ↔
      n ∈ g.predicted (seeds.map Prod.fst) ∧ f = g.followOf table seeds n := by
  have hkeys := g.keys_follows table seeds
  have hnodup : ((g.follows table seeds).map Prod.fst).Nodup := nodup_keys_follows
  unfold followOf
  rw [← hkeys]
  generalize g.follows table seeds = fs at hnodup ⊢
  constructor
  · intro h
    have hlookup : fs.lookup n = some f := lookup_of_mem hnodup h
    exact ⟨List.mem_map.mpr ⟨_, h, rfl⟩, by rw [hlookup, Option.getD_some]⟩
  · rintro ⟨hn, rfl⟩
    obtain ⟨⟨n, f⟩, hf, rfl⟩ := List.mem_map.mp hn
    have hlookup : fs.lookup n = some f := lookup_of_mem hnodup hf
    rw [hlookup, Option.getD_some]
    exact hf

/-- A seed lets the nonterminal at its mark be followed by what comes after the mark. -/
theorem within_followOf_of_seed {i : Item} {f : Flow} {n : Nat} {rest : List Symbol}
    (hs : (i, f) ∈ seeds) (hdot : g.afterDot i = .nonterminal n :: rest) :
    ((table.ofSymbols rest).andThen f).Within (g.followOf table seeds n) := by
  have hpart : (table.ofSymbols rest).andThen f ∈ seeds.filterMap (g.seedPart table n) :=
    List.mem_filterMap.mpr ⟨_, hs, seedPart_eq_some.mpr ⟨rest, hdot, rfl⟩⟩
  have hseed : ((table.ofSymbols rest).andThen f).Within (g.seedFlow table seeds n) := by
    rw [seedFlow_eq]
    exact (Flow.within_foldl_join (fun h ↦ h) _ _).2 _ hpart
  have hmarked : n ∈ g.marked (seeds.map Prod.fst) :=
    g.mem_marked.mpr ⟨i, List.mem_map_of_mem hs, by rw [next?, hdot, List.head?_cons]⟩
  have hn := marked_subset_predicted _ hmarked
  -- settling only ever adds to the flows that it begins with
  have hkept : ∃ F, (n, F) ∈ g.follows table seeds ∧ (g.seedFlow table seeds n).Within F := by
    refine settle_induction (P := fun fs : List (Nat × Flow) ↦
      ∃ F, (n, F) ∈ fs ∧ (g.seedFlow table seeds n).Within F) ?_ _ ?_
    · rintro fs ⟨F, hF, hwithin⟩
      rw [followStep_eq]
      exact ⟨_, List.mem_map_of_mem hF, hwithin.trans (Flow.within_foldl_join _ _ _).1⟩
    · exact ⟨_, List.mem_map_of_mem hn, .refl _⟩
  obtain ⟨F, hF, hwithin⟩ := hkept
  rw [← (mem_follows.mp hF).2]
  exact hseed.trans hwithin

/-- A predicted rule lets the nonterminal that it begins with be followed by the rest of it. -/
theorem within_followOf_of_rule (hg : g.Closed) (htable : table.Proper)
    (hseeds : ∀ s ∈ seeds, s.2.Proper) {k n : Nat} {r : Rule α} {rest : List Symbol}
    (hr : g.rules[k]? = some r) (hlhs : r.lhs ∈ g.predicted (seeds.map Prod.fst))
    (hrhs : r.rhs = .nonterminal n :: rest) :
    ((table.ofSymbols rest).andThen (g.followOf table seeds r.lhs)).Within
      (g.followOf table seeds n) := by
  have hleading : n ∈ g.leading r.lhs :=
    g.mem_leading.mpr ⟨r, List.mem_of_getElem? hr, rfl, by rw [hrhs, List.head?_cons]⟩
  have hn : n ∈ g.predicted (seeds.map Prod.fst) := by
    rw [← predictMore_predicted hg]
    exact g.mem_predictMore.mpr (Or.inr ⟨_, hlhs, hleading⟩)
  have hmem : (n, g.followOf table seeds n) ∈ g.follows table seeds :=
    mem_follows.mpr ⟨hn, rfl⟩
  rw [← followStep_follows htable hseeds, followStep_eq] at hmem
  obtain ⟨x, hx, heq⟩ := List.mem_map.mp hmem
  obtain ⟨rfl, heq⟩ := Prod.mk.inj heq
  rw [← heq]
  have hp : (⟨r.lhs, x.1, table.ofSymbols rest⟩ : Prediction) ∈
      g.predictions table (g.predicted (seeds.map Prod.fst)) :=
    mem_predictions.mpr ⟨k, r, rest, hr, hlhs, hrhs, rfl, rfl⟩
  exact (Flow.within_foldl_join (fun p : Prediction ↦
    p.flow.andThen (g.followOf table seeds p.source)) _ _).2 _
    (List.mem_filter.mpr ⟨hp, decide_eq_true rfl⟩)

/-- An item whose mark stands before a nonterminal predicts the rules of it, followed by what comes
after the mark. -/
theorem exists_flowClosure_of_next (hg : g.Closed) (htable : table.Proper)
    (hseeds : ∀ s ∈ seeds, s.2.Proper) {i : Item} {f : Flow} {k : Nat} {r : Rule α}
    {rest : List Symbol} (hi : (i, f) ∈ g.flowClosure table seeds)
    (hdot : g.afterDot i = .nonterminal r.lhs :: rest) (hr : g.rules[k]? = some r) :
    ∃ F, (⟨k, 0⟩, F) ∈ g.flowClosure table seeds ∧
      ((table.ofSymbols rest).andThen f).Within F := by
  have hnext : g.next? i = some (.nonterminal r.lhs) := by rw [next?, hdot, List.head?_cons]
  have hclosure := g.mem_closure_of_mem_flowClosure table hi
  have hpredicted := mem_predicted_of_next? hg hclosure hnext
  refine ⟨g.followOf table seeds r.lhs, ?_, ?_⟩
  · exact (g.mem_flowClosure table).mpr (Or.inr ⟨rfl, r, hr, mem_follows.mpr ⟨hpredicted, rfl⟩⟩)
  · rcases (g.mem_flowClosure table).mp hi with hi | ⟨hzero, r', hr', hf⟩
    · exact within_followOf_of_seed hi hdot
    · obtain ⟨hlhs', rfl⟩ := mem_follows.mp hf
      refine within_followOf_of_rule hg htable hseeds hr' hlhs' ?_
      rw [afterDot, hzero, List.drop_zero, g.rhs_of_getElem? hr'] at hdot
      exact hdot

theorem predicted_mono (hg : g.Closed) {kernel kernel' : List Item} (h : kernel ⊆ kernel') :
    g.predicted kernel ⊆ g.predicted kernel' := by
  rw [predicted_eq g kernel]
  refine settle_induction (P := fun ns ↦ ns ⊆ g.predicted kernel') ?_ _ ?_
  · intro ns hns n hn
    rw [← predictMore_predicted hg]
    rcases g.mem_predictMore.mp hn with hn | ⟨m, hm, hn⟩
    · exact g.mem_predictMore.mpr (Or.inl (hns hn))
    · exact g.mem_predictMore.mpr (Or.inr ⟨m, hns hm, hn⟩)
  · intro n hn
    obtain ⟨i, hi, hnext⟩ := g.mem_marked.mp (Ordered.mem_ofList.mp hn)
    exact marked_subset_predicted _ (g.mem_marked.mpr ⟨i, h hi, hnext⟩)

theorem predicted_single_subset (hg : g.Closed) {i : Item} {f : Flow} (hi : (i, f) ∈ seeds) :
    g.predicted [i] ⊆ g.predicted (seeds.map Prod.fst) := by
  refine predicted_mono hg ?_
  intro j hj
  rw [List.mem_singleton.mp hj]
  exact List.mem_map_of_mem hi

/-- What a single item lets follow, it lets follow among other seeds. -/
theorem andThen_within_followOf (hg : g.Closed) (htable : table.Proper)
    (hseeds : ∀ s ∈ seeds, s.2.Proper) {i : Item} {f₀ : Flow} (hi : (i, f₀) ∈ seeds) :
    ∀ x ∈ g.follows table [(i, .through)],
      (x.2.andThen f₀).Within (g.followOf table seeds x.1) := by
  have hsub := predicted_single_subset hg hi
  have hjoin : ∀ (F f h : Flow), (f.andThen f₀).Within F → (h.andThen f₀).Within F →
      ((f.join h).andThen f₀).Within F := by
    intro F f h hf hh
    refine ⟨fun t ht ↦ ?_, fun hp ↦ ?_⟩
    · have hf' := hf.1 t
      have hh' := hh.1 t
      simp only [Flow.mem_generated_andThen, Flow.mem_generated_join, Flow.passes_join,
        Bool.or_eq_true] at ht hf' hh'
      grind
    · have hf' := hf.2
      have hh' := hh.2
      simp only [Flow.passes_andThen, Flow.passes_join, Bool.and_eq_true, Bool.or_eq_true] at *
      grind
  have hnever : ∀ F : Flow, (Flow.never.andThen f₀).Within F := by
    intro F
    refine ⟨fun t ht ↦ ?_, fun hp ↦ ?_⟩
    · simp [Flow.never, Flow.mem_generated_andThen] at ht
    · simp [Flow.never] at hp
  suffices h : ∀ x ∈ g.follows table [(i, .through)], x.1 ∈ g.predicted [i] ∧
      (x.2.andThen f₀).Within (g.followOf table seeds x.1) from fun x hx ↦ (h x hx).2
  refine settle_induction (P := fun fs : List (Nat × Flow) ↦ ∀ x ∈ fs, x.1 ∈ g.predicted [i] ∧
    (x.2.andThen f₀).Within (g.followOf table seeds x.1)) ?_ _ ?_
  · intro fs hfs x hx
    rw [followStep_eq] at hx
    obtain ⟨y, hy, rfl⟩ := List.mem_map.mp hx
    refine ⟨(hfs y hy).1, ?_⟩
    refine Flow.foldl_join_induction _ _ (hjoin _) (hfs y hy).2 ?_
    intro p hp
    obtain ⟨hp, htarget⟩ := List.mem_filter.mp hp
    obtain ⟨k, r, rest, hr, hlhs, hrhs, hsource, hflow⟩ := mem_predictions.mp hp
    rw [← of_decide_eq_true htarget, hflow, Flow.andThen_assoc]
    refine .trans (.andThen (.refl _) ?_)
      (within_followOf_of_rule hg htable hseeds hr (hsub hlhs) hrhs)
    rw [hsource]
    cases hlookup : fs.lookup r.lhs with
    | none => exact hnever _
    | some f =>
      obtain ⟨l₁, l₂, rfl, -⟩ := List.lookup_eq_some_iff.mp hlookup
      exact (hfs (r.lhs, f) (by simp)).2
  · intro x hx
    obtain ⟨n, hn, rfl⟩ := List.mem_map.mp hx
    refine ⟨hn, ?_⟩
    rw [seedFlow_eq]
    refine Flow.foldl_join_induction _ _ (hjoin _) (hnever _) ?_
    intro f hf
    obtain ⟨s, hs, hpart⟩ := List.mem_filterMap.mp hf
    obtain ⟨rest, hdot, rfl⟩ := seedPart_eq_some.mp hpart
    rw [List.mem_singleton.mp hs] at hdot ⊢
    rw [Flow.andThen_through]
    exact within_followOf_of_seed hi hdot

/-- What may follow an item on account of a single seed, may follow it among other seeds. -/
theorem exists_flowClosure_of_single (hg : g.Closed) (htable : table.Proper)
    (hseeds : ∀ s ∈ seeds, s.2.Proper) {i j : Item} {f f₀ : Flow} (hi : (i, f₀) ∈ seeds)
    (hj : (j, f) ∈ g.flowClosure table [(i, .through)]) :
    ∃ F, (j, F) ∈ g.flowClosure table seeds ∧ (f.andThen f₀).Within F := by
  rcases (g.mem_flowClosure table).mp hj with hj | ⟨hdot, r, hr, hf⟩
  · cases List.mem_singleton.mp hj
    refine ⟨f₀, (g.mem_flowClosure table).mpr (Or.inl hi), ?_⟩
    rw [Flow.through_andThen]
    exact .refl f₀
  · have hsub := predicted_single_subset hg hi
    refine ⟨g.followOf table seeds r.lhs, ?_, andThen_within_followOf hg htable hseeds hi _ hf⟩
    refine (g.mem_flowClosure table).mpr (Or.inr ⟨hdot, r, hr, mem_follows.mpr ⟨?_, rfl⟩⟩)
    exact hsub (mem_follows.mp hf).1

end Follows

theorem proper_flowClosure (htable : table.Proper) {seeds : List (Item × Flow)}
    (hseeds : ∀ s ∈ seeds, s.2.Proper) {i : Item} {f : Flow}
    (h : (i, f) ∈ g.flowClosure table seeds) : f.Proper := by
  rcases (g.mem_flowClosure table).mp h with h | ⟨-, r, -, h⟩
  · exact hseeds _ h
  · exact proper_follows htable hseeds _ h

/-! ## Between states -/

section Inflows

variable (g table) (states : List State)

/-- All flows along edges: the state and the place that they reach, and where they come from. -/
def ways : List (Nat × Nat × Inflow) :=
  states.zipIdx.flatMap fun (s, n) ↦ s.kernel.zipIdx.flatMap fun (i, k) ↦
    (g.outflows table states s i).map fun (t, l, f) ↦ (t, l, Inflow.mk n k f)

/-- The flows that reach a place of a state. -/
def arriving (ways : List (Nat × Nat × Inflow)) (m l : Nat) : List Inflow :=
  (ways.filterMap fun (m', w) ↦ if m' = m then some w else none).filterMap fun (l', w) ↦
    if l' = l then some w else none

variable {g table states}

theorem mem_arriving {ways : List (Nat × Nat × Inflow)} {m l : Nat} {w : Inflow} :
    w ∈ arriving ways m l ↔ (m, l, w) ∈ ways := by
  simp [arriving]

theorem mem_ways {m l n k : Nat} {f : Flow} :
    (m, l, ⟨n, k, f⟩) ∈ g.ways table states ↔ ∃ s i, states[n]? = some s ∧
      s.kernel[k]? = some i ∧ (m, l, f) ∈ g.outflows table states s i := by
  simp only [ways, List.mem_flatMap, List.mem_map, Prod.exists, List.mem_zipIdx_iff_getElem?,
    Prod.mk.injEq, Inflow.mk.injEq]
  constructor
  · rintro ⟨s, n, hs, i, k, hi, m, l, f, hout, rfl, rfl, rfl, rfl, rfl⟩
    exact ⟨s, i, hs, hi, hout⟩
  · rintro ⟨s, i, hs, hi, hout⟩
    exact ⟨s, n, hs, i, k, hi, m, l, f, hout, rfl, rfl, rfl, rfl, rfl⟩

theorem getElem?_inflows {m : Nat} {s : State} (hs : states[m]? = some s) :
    (g.inflows table states)[m]? =
      some (s.kernel.zipIdx.map fun x ↦ arriving (g.ways table states) m x.2) := by
  unfold inflows
  rw [List.getElem?_map, List.getElem?_zipIdx, hs]
  simp [arriving, ways]

/-- What goes along an edge is found again where the edge leads. -/
theorem exists_place {m : Nat} {s s' : State} {i j : Item} {x : Symbol} {f : Flow}
    (hj : (j, f) ∈ g.flowClosure table [(i, .through)]) (hnext : g.next? j = some x)
    (htarget : s.target? x = some m) (hs' : states[m]? = some s')
    (hmem : j.advance ∈ s'.kernel) :
    ∃ l, s'.kernel[l]? = some j.advance ∧ (m, l, f) ∈ g.outflows table states s i := by
  cases hl : s'.kernel.findIdx? (· == j.advance) with
  | none =>
    have hnone := List.findIdx?_eq_none_iff.mp hl _ hmem
    simp at hnone
  | some l =>
    obtain ⟨hlt, heq, -⟩ := List.findIdx?_eq_some_iff_getElem.mp hl
    refine ⟨l, ?_, List.mem_filterMap.mpr ⟨(j, f), hj, ?_⟩⟩
    · rw [List.getElem?_eq_getElem hlt, beq_iff_eq.mp heq]
    · simp [hnext, htarget, hs', hl]

/-- What goes along an edge comes from an item of the closure, and ends where the item is that has
been advanced over the edge's symbol. -/
theorem of_mem_outflows {s : State} {i : Item} {m l : Nat} {f : Flow}
    (h : (m, l, f) ∈ g.outflows table states s i) :
    ∃ (j : Item) (x : Symbol) (s' : State), (j, f) ∈ g.flowClosure table [(i, .through)] ∧
      g.next? j = some x ∧ s.target? x = some m ∧ states[m]? = some s' ∧
        s'.kernel[l]? = some j.advance := by
  obtain ⟨⟨j, f⟩, hj, hmem⟩ := List.mem_filterMap.mp h
  simp only [Option.bind_eq_bind, Option.bind_eq_some_iff, Option.pure_def, Option.some.injEq,
    Prod.mk.injEq] at hmem
  obtain ⟨x, hnext, _, htarget, s', hs', _, hplace, rfl, rfl, rfl⟩ := hmem
  obtain ⟨hlt, heq, -⟩ := List.findIdx?_eq_some_iff_getElem.mp hplace
  refine ⟨j, x, s', hj, hnext, htarget, hs', ?_⟩
  rw [List.getElem?_eq_getElem hlt, beq_iff_eq.mp heq]

theorem proper_single (i : Item) : ∀ s ∈ [(i, Flow.through)], s.2.Proper := by
  intro s hs
  rw [List.mem_singleton.mp hs]
  exact TerminalSet.proper_empty

theorem proper_of_mem_ways (htable : table.Proper) {m l : Nat} {w : Inflow}
    (h : (m, l, w) ∈ g.ways table states) : w.flow.Proper := by
  obtain ⟨s, i, -, -, hout⟩ := mem_ways.mp h
  obtain ⟨j, -, -, hj, -⟩ := of_mem_outflows hout
  exact proper_flowClosure htable (proper_single i) hj

theorem mem_ways_of_mem_inflows {m l : Nat} {row : List (List Inflow)} {cell : List Inflow}
    {w : Inflow} (hrow : (g.inflows table states)[m]? = some row) (hcell : row[l]? = some cell)
    (hw : w ∈ cell) : (m, l, w) ∈ g.ways table states := by
  have hlt : m < states.length := by
    have := (List.getElem?_eq_some_iff.mp hrow).1
    simpa [inflows] using this
  rw [getElem?_inflows (List.getElem?_eq_getElem hlt), Option.some.injEq] at hrow
  rw [← hrow, List.getElem?_map, List.getElem?_zipIdx, Option.map_map,
    Option.map_eq_some_iff] at hcell
  obtain ⟨i, -, rfl⟩ := hcell
  simpa using mem_arriving.mp hw

end Inflows

end PlainLedger.Grammar

namespace PlainLedger

namespace Lookaheads

/-- All of the sets are proper ones. -/
def Proper (l : Lookaheads) : Prop := ∀ row ∈ l, ∀ s ∈ row, s.Proper

theorem Proper.get {l : Lookaheads} (h : l.Proper) (n k : Nat) : (l.get n k).Proper := by
  unfold Lookaheads.get
  rw [List.getD_eq_getElem?_getD, List.getD_eq_getElem?_getD]
  cases hn : l[n]? with
  | none => exact TerminalSet.proper_empty
  | some row =>
    rw [Option.getD_some]
    cases hk : row[k]? with
    | none => exact TerminalSet.proper_empty
    | some s => exact h row (List.mem_of_getElem? hn) s (List.mem_of_getElem? hk)

theorem get_eq {l : Lookaheads} {n k : Nat} {row : List TerminalSet} {s : TerminalSet}
    (hn : l[n]? = some row) (hk : row[k]? = some s) : l.get n k = s := by
  simp [Lookaheads.get, hn, hk]

theorem Proper.absorb {l : Lookaheads} (h : l.Proper) {s : TerminalSet} (hs : s.Proper)
    {ws : List Inflow} (hws : ∀ w ∈ ws, w.flow.Proper) : (l.absorb s ws).Proper := by
  induction ws generalizing s with
  | nil => exact hs
  | cons w ws ih =>
    rw [List.forall_mem_cons] at hws
    refine ih (hs.union ?_) hws.2
    unfold Flow.apply
    split
    · exact hws.1.union (h.get _ _)
    · exact hws.1

/-- Of two related sets both are proper, and the second has the members of the first. -/
def Rises (s r : TerminalSet) : Prop := s.Proper ∧ r.Proper ∧ s.Within r

theorem forall₂_zipWith {β γ : Type} {R : β → β → Prop} {S : β → γ → Prop} {h : β → γ → β}
    {xs : List β} {ys : List γ} (hS : List.Forall₂ S xs ys)
    (hR : ∀ x ∈ xs, ∀ y ∈ ys, S x y → R x (h x y)) : List.Forall₂ R xs (List.zipWith h xs ys) := by
  induction hS with
  | nil => exact .nil
  | cons hxy _ ih =>
    simp only [List.forall_mem_cons] at hR
    exact .cons (hR.1.1 hxy) (ih fun x hx y hy ↦ (hR.2 x hx).2 y hy)

theorem rises_collect {l : Lookaheads} {ws : List (List (List Inflow))} (hl : l.Proper)
    (hlengths : l.map List.length = ws.map List.length)
    (hws : ∀ row ∈ ws, ∀ cell ∈ row, ∀ w ∈ cell, w.flow.Proper) :
    List.Forall₂ (List.Forall₂ Rises) l (collect ws l) := by
  rw [← List.forall₂_eq_eq_eq, List.forall₂_map_left_iff, List.forall₂_map_right_iff] at hlengths
  refine forall₂_zipWith hlengths fun row hrow cells hcells hlength ↦ ?_
  have htrue : List.Forall₂ (fun _ _ ↦ True) row cells :=
    List.forall₂_iff_get.mpr ⟨hlength, fun _ _ _ ↦ trivial⟩
  refine forall₂_zipWith htrue fun s hs cell hcell _ ↦ ?_
  exact ⟨hl row hrow s hs, hl.absorb (hl row hrow s hs) (hws cells hcells cell hcell),
    fun t ht ↦ mem_absorb.mpr (Or.inl ht)⟩

theorem exists_of_forall₂ {β γ : Type} {R : β → γ → Prop} {xs : List β} {ys : List γ}
    (h : List.Forall₂ R xs ys) {y : γ} (hy : y ∈ ys) : ∃ x, R x y := by
  induction h with
  | nil => cases hy
  | cons hxy _ ih =>
    rcases List.mem_cons.mp hy with rfl | hy
    · exact ⟨_, hxy⟩
    · exact ih hy

theorem exists_getElem?_of_forall₂ {β γ : Type} {R : β → γ → Prop} {xs : List β} {ys : List γ}
    (h : List.Forall₂ R xs ys) {n : Nat} {x : β} (hx : xs[n]? = some x) :
    ∃ y, ys[n]? = some y ∧ R x y := by
  induction h generalizing n with
  | nil => simp at hx
  | cons hxy _ ih =>
    cases n with
    | zero =>
      cases hx
      exact ⟨_, rfl, hxy⟩
    | succ n => exact ih hx

theorem proper_of_rises {l l' : Lookaheads} (h : List.Forall₂ (List.Forall₂ Rises) l l') :
    l'.Proper := by
  intro row hrow s hs
  obtain ⟨row', hrises⟩ := exists_of_forall₂ h hrow
  obtain ⟨s', hs'⟩ := exists_of_forall₂ hrises hs
  exact hs'.2.1

theorem sum_size_le (l : Lookaheads) :
    (l.map fun row ↦ (row.map TerminalSet.size).sum).sum ≤
      (l.map List.length).sum * Terminal.count := by
  induction l with
  | nil => exact Nat.zero_le _
  | cons row l ih =>
    have hrow : (row.map TerminalSet.size).sum ≤ row.length * Terminal.count :=
      sum_map_le fun s _ ↦ s.size_le
    simp only [List.map_cons, List.sum_cons, Nat.add_mul]
    exact Nat.add_le_add hrow ih

end Lookaheads

namespace Grammar

variable {α : Type} (g : Grammar α) {table : FlowTable}

theorem proper_inflows (htable : table.Proper) (states : List State) :
    ∀ row ∈ g.inflows table states, ∀ cell ∈ row, ∀ w ∈ cell, w.flow.Proper := by
  intro row hrow cell hcell w hw
  obtain ⟨m, hm⟩ := List.mem_iff_getElem?.mp hrow
  obtain ⟨l, hl⟩ := List.mem_iff_getElem?.mp hcell
  exact proper_of_mem_ways htable (mem_ways_of_mem_inflows hm hl hw)

theorem proper_initial (states : List State) : (Lookaheads.initial states).Proper := by
  intro row hrow s hs
  obtain ⟨x, -, rfl⟩ := List.mem_map.mp hrow
  obtain ⟨i, -, rfl⟩ := List.mem_map.mp hs
  split
  · exact TerminalSet.proper_singleton _
  · exact TerminalSet.proper_empty

theorem rises_collect_inflows (htable : table.Proper) {states : List State} {l : Lookaheads}
    (hfits : l.Fits states) (hl : l.Proper) :
    List.Forall₂ (List.Forall₂ Lookaheads.Rises) l
      (Lookaheads.collect (g.inflows table states) l) :=
  Lookaheads.rises_collect hl (hfits.trans (g.fits_inflows table states).symm)
    (g.proper_inflows htable states)

theorem proper_solveLookaheads (htable : table.Proper) (states : List State) :
    (g.solveLookaheads table states).Proper := by
  have hboth : (g.solveLookaheads table states).Fits states ∧
      (g.solveLookaheads table states).Proper := by
    refine settle_induction (P := fun l : Lookaheads ↦ l.Fits states ∧ l.Proper) ?_ _
      ⟨Lookaheads.fits_initial states, proper_initial states⟩
    rintro l ⟨hfits, hl⟩
    exact ⟨hfits.collect (g.fits_inflows table states),
      Lookaheads.proper_of_rises (g.rises_collect_inflows htable hfits hl)⟩
  exact hboth.2

/-- The lookaheads of the kernels are settled. -/
theorem collect_solveLookaheads (htable : table.Proper) (states : List State) :
    Lookaheads.collect (g.inflows table states) (g.solveLookaheads table states) =
      g.solveLookaheads table states := by
  refine step_settle_of_grows (P := fun l : Lookaheads ↦ l.Fits states ∧ l.Proper)
    TerminalSet.grows_within.list ?_ ?_ ?_ ⟨Lookaheads.fits_initial states, proper_initial states⟩
    (Nat.lt_succ_self _)
  · rintro l ⟨hfits, hl⟩
    exact ⟨hfits.collect (g.fits_inflows table states),
      Lookaheads.proper_of_rises (g.rises_collect_inflows htable hfits hl)⟩
  · rintro l ⟨hfits, hl⟩
    exact g.rises_collect_inflows htable hfits hl
  · rintro l ⟨hfits, -⟩
    have hsum := Lookaheads.sum_size_le l
    rw [hfits] at hsum
    exact hsum

theorem proper_lookaheads : g.lookaheads.Proper := g.proper_solveLookaheads g.proper_flows g.states

variable {g}

theorem length_row_lookaheads {n : Nat} {s : State} (hs : g.states[n]? = some s) :
    ∃ la, g.lookaheads[n]? = some la ∧ la.length = s.kernel.length := by
  have hfits := g.fits_solveLookaheads g.flows g.states
  have hlen := congrArg (fun l ↦ l[n]?) hfits
  simp only [List.getElem?_map, hs, Option.map_some, Option.map_eq_some_iff] at hlen
  exact hlen

/-- What goes along an edge is among the lookaheads where the edge leads. -/
theorem mem_get_of_way {n k m l : Nat} {f : Flow} {s : State} {t : Terminal}
    (hway : (m, l, ⟨n, k, f⟩) ∈ g.ways g.flows g.states) (hs : g.states[m]? = some s)
    (hl : l < s.kernel.length) (ht : t ∈ f.apply (g.lookaheads.get n k)) :
    t ∈ g.lookaheads.get m l := by
  obtain ⟨la, hla, hlength⟩ := length_row_lookaheads hs
  have hlt : l < la.length := hlength ▸ hl
  have hfixed := g.collect_solveLookaheads g.proper_flows g.states
  change Lookaheads.collect _ g.lookaheads = g.lookaheads at hfixed
  have hrow := congrArg (fun ls : Lookaheads ↦ ls[m]?) hfixed
  simp only [Lookaheads.collect, List.getElem?_zipWith, hla, getElem?_inflows hs,
    Option.some.injEq] at hrow
  have hcell := congrArg (fun row : List TerminalSet ↦ row[l]?) hrow
  simp only [List.getElem?_zipWith, List.getElem?_eq_getElem hlt, List.getElem?_map,
    List.getElem?_zipIdx, List.getElem?_eq_getElem hl, Option.map_some, Nat.zero_add,
    Option.some.injEq] at hcell
  rw [Lookaheads.get_eq hla (List.getElem?_eq_getElem hlt), ← hcell, Lookaheads.mem_absorb]
  exact Or.inr ⟨_, mem_arriving.mpr hway, ht⟩

/-! ## Derivations -/

/-- The terminal may follow the item in the state. -/
inductive MayFollow (g : Grammar α) : Nat → Item → Terminal → Prop where
  | start : MayFollow g 0 g.startItem .endOfInput
  | predict {n k : Nat} {i : Item} {t u : Terminal} {p : Rule α} {rest : List Symbol}
      (h : MayFollow g n i t) (hdot : g.afterDot i = .nonterminal p.lhs :: rest)
      (hrule : g.rules[k]? = some p) (hu : u ∈ (g.flows.ofSymbols rest).apply (.singleton t)) :
      MayFollow g n ⟨k, 0⟩ u
  | advance {n m : Nat} {i : Item} {t : Terminal} {x : Symbol} (h : MayFollow g n i t)
      (hnext : g.next? i = some x) (he : g.Edge n x m) : MayFollow g m i.advance t

/-- What may follow an item comes from the lookaheads of some kernel item. -/
def Reached (g : Grammar α) (n : Nat) (i : Item) (t : Terminal) : Prop :=
  ∃ s k j f, g.states[n]? = some s ∧ s.kernel[k]? = some j ∧
    (i, f) ∈ g.flowClosure g.flows [(j, .through)] ∧ t ∈ f.apply (g.lookaheads.get n k)

theorem MayFollow.has (hg : g.Closed) {n : Nat} {i : Item} {t : Terminal} (h : g.MayFollow n i t) :
    g.Has n i := by
  induction h with
  | start => exact (kernelHas_start_iff.mpr rfl).has
  | predict _ hdot hrule _ ih =>
    obtain ⟨s, hs, hi⟩ := ih
    exact ⟨s, hs, mem_closure_of_next? hg hi hrule (by rw [next?, hdot, List.head?_cons])⟩
  | advance _ hnext he ih => exact ((kernelHas_iff_of_edge he).mpr ⟨_, ih, hnext, rfl⟩).has

/-- The first kernel holds one item, and only the end of input follows it before anything else. -/
theorem of_mem_get_initial {n k : Nat} {t : Terminal}
    (ht : t ∈ (Lookaheads.initial g.states).get n k) : n = 0 ∧ k = 0 ∧ t = .endOfInput := by
  unfold Lookaheads.get Lookaheads.initial at ht
  cases hs : g.states[n]? with
  | none => simp [List.getElem?_zipIdx, hs] at ht
  | some s =>
    cases hi : s.kernel[k]? with
    | none =>
      simp only [List.getD_eq_getElem?_getD, List.getElem?_map, List.getElem?_zipIdx, hs, hi,
        Option.map_some, Option.map_none, Option.getD_some, Option.getD_none] at ht
      exact (TerminalSet.not_mem_empty t ht).elim
    | some i =>
      simp only [List.getD_eq_getElem?_getD, List.getElem?_map, List.getElem?_zipIdx, hs, hi,
        Option.map_some, Option.getD_some, Nat.zero_add] at ht
      split at ht
      · rename_i hn
        subst hn
        obtain ⟨S, hS, hkernel⟩ := g.exists_start_state
        cases Option.some.inj (hs.symm.trans hS)
        have hk := (List.getElem?_eq_some_iff.mp hi).1
        rw [hkernel, List.length_singleton] at hk
        exact ⟨rfl, Nat.lt_one_iff.mp hk, TerminalSet.mem_singleton.mp ht⟩
      · exact (TerminalSet.not_mem_empty t ht).elim

/-- The end of the text follows the whole text. -/
theorem endOfInput_mem_get : .endOfInput ∈ g.lookaheads.get 0 0 := by
  obtain ⟨s, hs, hkernel⟩ := g.exists_start_state
  suffices h : (g.lookaheads.Fits g.states ∧ g.lookaheads.Proper) ∧ ∃ row r,
      g.lookaheads[0]? = some row ∧ row[0]? = some r ∧ .endOfInput ∈ r by
    obtain ⟨-, row, r, hrow, hr, hmem⟩ := h
    rwa [Lookaheads.get_eq hrow hr]
  refine settle_induction (P := fun l : Lookaheads ↦ (l.Fits g.states ∧ l.Proper) ∧
    ∃ row r, l[0]? = some row ∧ row[0]? = some r ∧ .endOfInput ∈ r) ?_ _ ?_
  · rintro l ⟨⟨hfits, hl⟩, row, r, hrow, hr, hmem⟩
    have hrises := g.rises_collect_inflows g.proper_flows hfits hl
    obtain ⟨row', hrow', hrises'⟩ := Lookaheads.exists_getElem?_of_forall₂ hrises hrow
    obtain ⟨r', hr', hin⟩ := Lookaheads.exists_getElem?_of_forall₂ hrises' hr
    exact ⟨⟨hfits.collect (g.fits_inflows g.flows g.states), Lookaheads.proper_of_rises hrises⟩,
      row', r', hrow', hr', hin.2.2 _ hmem⟩
  · refine ⟨⟨Lookaheads.fits_initial g.states, proper_initial g.states⟩,
      [.singleton .endOfInput], .singleton .endOfInput, ?_, rfl, TerminalSet.mem_singleton.mpr rfl⟩
    simp [Lookaheads.initial, List.getElem?_zipIdx, hs, hkernel]

theorem reached_start : g.Reached 0 g.startItem .endOfInput := by
  obtain ⟨s, hs, hkernel⟩ := g.exists_start_state
  exact ⟨s, 0, g.startItem, .through, hs, by rw [hkernel]; rfl,
    (g.mem_flowClosure _).mpr (Or.inl (List.mem_singleton.mpr rfl)),
    Flow.mem_apply.mpr (Or.inr ⟨rfl, endOfInput_mem_get⟩)⟩

theorem MayFollow.reached (hg : g.Closed) {n : Nat} {i : Item} {t : Terminal}
    (h : g.MayFollow n i t) : g.Reached n i t := by
  induction h with
  | start => exact reached_start
  | predict _ hdot hrule hu ih =>
    obtain ⟨s, k', j, f, hs, hj, hi, ht⟩ := ih
    obtain ⟨F, hF, hwithin⟩ :=
      exists_flowClosure_of_next hg g.proper_flows (proper_single j) hi hdot hrule
    refine ⟨s, k', j, F, hs, hj, hF, hwithin.mem_apply ?_⟩
    rw [Flow.mem_apply_andThen]
    rw [Flow.mem_apply] at hu ⊢
    refine hu.imp_right fun ⟨hp, hu⟩ ↦ ⟨hp, ?_⟩
    rwa [TerminalSet.mem_singleton.mp hu]
  | @advance n m i t x h hnext he ih =>
    obtain ⟨s, k, j, f, hs, hj, hi, ht⟩ := ih
    have hkernel := (kernelHas_iff_of_edge he).mpr ⟨i, h.has hg, hnext, rfl⟩
    obtain ⟨S, hS, htarget⟩ := he
    cases Option.some.inj (hs.symm.trans hS)
    obtain ⟨s', hs', hmem⟩ := hkernel
    obtain ⟨l, hl, hout⟩ := exists_place hi hnext htarget hs' hmem
    have hway := mem_ways.mpr ⟨s, j, hs, hj, hout⟩
    have hlt := (List.getElem?_eq_some_iff.mp hl).1
    exact ⟨s', l, i.advance, .through, hs', hl,
      (g.mem_flowClosure _).mpr (Or.inl (List.mem_singleton.mpr rfl)),
      Flow.mem_apply.mpr (Or.inr ⟨rfl, mem_get_of_way hway hs' hlt ht⟩)⟩

/-- What may follow an item is among its lookaheads in the row. -/
theorem MayFollow.exists_itemLookaheads (hg : g.Closed) {n : Nat} {i : Item} {t : Terminal}
    (h : g.MayFollow n i t) {s : State} {la : List TerminalSet} (hs : g.states[n]? = some s)
    (hla : g.lookaheads[n]? = some la) :
    ∃ ts, (i, ts) ∈ g.itemLookaheads g.flows s la ∧ t ∈ ts := by
  obtain ⟨s', k, j, f, hs', hj, hi, ht⟩ := h.reached hg
  cases Option.some.inj (hs.symm.trans hs')
  have hlength := length_lookahead hs hla
  have hk := (List.getElem?_eq_some_iff.mp hj).1
  have hset := Lookaheads.get_eq hla (List.getElem?_eq_getElem (hlength ▸ hk))
  have hseed : (j, Flow.constant la[k]) ∈
      (s.kernel.zip la).map fun x ↦ (x.1, Flow.constant x.2) := by
    refine List.mem_map.mpr ⟨(j, la[k]), ?_, rfl⟩
    exact List.mem_of_getElem? (List.getElem?_zip_eq_some.mpr ⟨hj, List.getElem?_eq_getElem _⟩)
  have hproper : ∀ x ∈ (s.kernel.zip la).map fun x ↦ (x.1, Flow.constant x.2),
      x.2.Proper := by
    intro x hx
    obtain ⟨y, hy, rfl⟩ := List.mem_map.mp hx
    exact g.proper_lookaheads la (List.mem_of_getElem? hla) _ (List.of_mem_zip hy).2
  obtain ⟨F, hF, hwithin⟩ := exists_flowClosure_of_single hg g.proper_flows hproper hseed hi
  refine ⟨F.generated, mem_itemLookaheads.mpr ⟨F, hF, rfl⟩, hwithin.1 t ?_⟩
  rw [hset] at ht
  exact Flow.mem_generated_andThen.mpr (Flow.mem_apply.mp ht)

/-- A rule that has been read to its end may be completed before what may follow it. -/
theorem MayFollow.mem_completable (hg : g.Closed) {n k d : Nat} {t : Terminal}
    (h : g.MayFollow n ⟨k, d⟩ t) (hdot : g.afterDot ⟨k, d⟩ = []) {s : State}
    {la : List TerminalSet} (hs : g.states[n]? = some s) (hla : g.lookaheads[n]? = some la) :
    k ∈ g.completable g.flows s la t := by
  obtain ⟨ts, hts, ht⟩ := h.exists_itemLookaheads hg hs hla
  exact Grammar.mem_completable.mpr ⟨d, ts, hts, hdot, ht⟩

end Grammar

end PlainLedger
