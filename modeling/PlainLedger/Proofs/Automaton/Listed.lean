import PlainLedger.Proofs.Automaton.Propagate

/-!
# Listed automata

The generator looks for each kernel among those it has found so far, and lets the lookaheads flow
until nothing changes any more. Where the states and their lookaheads have been written down,
neither is needed to see that they are those of a grammar. States are right if their edges lead to
the kernels that the generator leaves them for, and find the states in the order in which they are
listed. Lookaheads are right if nothing flows out of them, and each of them can be traced back to
where it comes about, from states to states with smaller numbers.
-/

namespace PlainLedger

/-! ## States -/

namespace Survey

/-- How many states are known after the edges have been followed, if there were `known` before: each
edge leads to one of these, or to the next one. -/
def follow? (known : Nat) : List (Symbol × Nat) → Option Nat
  | [] => some known
  | (_, k) :: rest =>
    if k < known then follow? known rest
    else if k = known then follow? (known + 1) rest
    else none

theorem le_of_follow? {edges : List (Symbol × Nat)} {m n : Nat} (h : follow? m edges = some n) :
    m ≤ n := by
  induction edges generalizing m with
  | nil => exact (Option.some.inj h).le
  | cons e edges ih =>
    unfold follow? at h
    split at h
    · exact ih h
    · split at h
      · exact (Nat.le_succ m).trans (ih h)
      · cases h

/-- The states that are still to be left are all that there are to be found, and each is found
before it is left. -/
def InOrder (total : Nat) : Nat → Nat → List State → Prop
  | _, known, [] => known = total
  | left, known, s :: rest =>
    left < known ∧ ∃ known' ∈ follow? known s.edges, InOrder total (left + 1) known' rest

instance decidableInOrder (total : Nat) :
    (left known : Nat) → (states : List State) → Decidable (InOrder total left known states)
  | _, known, [] => inferInstanceAs (Decidable (known = total))
  | left, known, s :: rest =>
    have : DecidablePred fun known' ↦ InOrder total (left + 1) known' rest :=
      fun known' ↦ decidableInOrder total (left + 1) known' rest
    inferInstanceAs (Decidable (left < known ∧
      ∃ known' ∈ follow? known s.edges, InOrder total (left + 1) known' rest))

theorem InOrder.known_le {total left known : Nat} {states : List State}
    (h : InOrder total left known states) : known ≤ total := by
  induction states generalizing left known with
  | nil => exact Nat.le_of_eq h
  | cons s states ih =>
    obtain ⟨-, known', hfollow, hrest⟩ := h
    exact (le_of_follow? hfollow).trans (ih hrest)

/-- Where the kernels are known in advance, linking finds them by their numbers. -/
theorem link_take {kernels : List (List Item)} (hnodup : kernels.Nodup)
    {edges : List (Symbol × Nat)} {m n : Nat} (h : follow? m edges = some n)
    (hn : n ≤ kernels.length) :
    link (kernels.take m) (edges.map fun e ↦ (e.1, kernels.getD e.2 [])) =
      (kernels.take n, edges) := by
  induction edges generalizing m with
  | nil => rw [← Option.some.inj h]; rfl
  | cons e edges ih =>
    obtain ⟨x, k⟩ := e
    have hmn := le_of_follow? h
    unfold follow? at h
    split at h
    · rename_i hk
      have hlt : k < kernels.length := by omega
      have hfind : (kernels.take m).findIdx? (· == kernels.getD k []) = some k := by
        refine List.findIdx?_eq_some_iff_getElem.mpr ⟨by simp; omega, ?_, fun j hj ↦ ?_⟩
        · simp [hlt]
        · have hne : kernels[j] ≠ kernels[k] := fun heq ↦ hj.ne (hnodup.getElem_inj_iff.mp heq)
          simpa [hlt] using hne
      rw [List.map_cons, link]
      simp only [hfind]
      rw [ih h]
    · split at h
      · rename_i hk
        subst hk
        have hlt : k < kernels.length := (Nat.lt_of_succ_le (le_of_follow? h)).trans_le hn
        have hfind : (kernels.take k).findIdx? (· == kernels.getD k []) = none := by
          refine List.findIdx?_eq_none_iff.mpr fun K hK ↦ ?_
          obtain ⟨j, hj, rfl⟩ := List.getElem_of_mem hK
          rw [List.length_take] at hj
          have hne : kernels[j] ≠ kernels[k] := by
            intro heq
            have := hnodup.getElem_inj_iff.mp heq
            omega
          simpa [hlt] using hne
        have htake : kernels.take k ++ [kernels.getD k []] = kernels.take (k + 1) := by
          rw [List.take_add_one, List.getElem?_eq_getElem hlt]
          simp [hlt]
        rw [List.map_cons, link]
        simp only [hfind]
        rw [htake, ih h, List.length_take, min_eq_left hlt.le]
      · cases h

variable {α : Type} {g : Grammar α} {states : List State}

/-- From where it has left some of the listed states, the survey leaves the others. -/
theorem complete_eq (hnodup : (states.map State.kernel).Nodup)
    (hedges : ∀ s ∈ states, g.successors s.kernel =
      s.edges.map fun e ↦ (e.1, (states.map State.kernel).getD e.2 []))
    {done rest : List State} (hstates : states = done ++ rest) {known : Nat}
    (h : InOrder states.length done.length known rest) {budget : Nat}
    (hbudget : rest.length ≤ budget) :
    complete g budget ⟨(states.map State.kernel).take known, done.map State.edges⟩ =
      ⟨states.map State.kernel, states.map State.edges⟩ := by
  induction rest generalizing done known budget with
  | nil =>
    rw [List.append_nil] at hstates
    subst hstates
    have hall : (states.map State.kernel).take known = states.map State.kernel :=
      List.take_of_length_le (by rw [List.length_map, show known = states.length from h])
    rw [hall]
    cases budget with
    | zero => rfl
    | succ budget => simp [complete]
  | cons s rest ih =>
    obtain ⟨hlt, known', hfollow, hrest⟩ := h
    cases budget with
    | zero => cases hbudget
    | succ budget =>
      have hnext : ((states.map State.kernel).take known)[(done.map State.edges).length]? =
          some s.kernel := by
        rw [List.length_map, List.getElem?_take_of_lt hlt, List.getElem?_map, hstates]
        simp
      have hknown : known' ≤ (states.map State.kernel).length := by
        rw [List.length_map]
        exact hrest.known_le
      have hlink := link_take hnodup hfollow hknown
      rw [← hedges s (hstates ▸ List.mem_append_right _ (List.mem_cons_self ..))] at hlink
      rw [complete]
      simp only [hnext, hlink]
      have hdone : done.map State.edges ++ [s.edges] = (done ++ [s]).map State.edges := by simp
      rw [hdone]
      refine ih (by simp [hstates]) ?_ (Nat.le_of_succ_le_succ hbudget)
      rwa [List.length_append, List.length_singleton]

end Survey

namespace Grammar

variable {α : Type} {g : Grammar α} {states : List State}

theorem states_eq_of_inOrder (hstart : states.head?.map State.kernel = some [g.startItem])
    (hnodup : (states.map State.kernel).Nodup)
    (hedges : ∀ s ∈ states, g.successors s.kernel =
      s.edges.map fun e ↦ (e.1, (states.map State.kernel).getD e.2 []))
    (horder : Survey.InOrder states.length 0 1 states)
    (hbudget : states.length ≤ 2 ^ g.itemCount) : g.states = states := by
  have htake : (states.map State.kernel).take 1 = [[g.startItem]] := by
    cases states with
    | nil => cases hstart
    | cons s rest => simpa using hstart
  have hsurvey := Survey.complete_eq hnodup hedges
    (show states = [] ++ states from rfl) horder hbudget
  rw [htake] at hsurvey
  have hzip : ∀ ss : List State, ((ss.map State.kernel).zip (ss.map State.edges)).map
      (fun s ↦ (⟨s.1, s.2⟩ : State)) = ss := by
    intro ss
    induction ss with
    | nil => rfl
    | cons s ss ih => exact congrArg (s :: ·) ih
  unfold Grammar.states
  rw [show g.survey = _ from hsurvey]
  exact hzip states

end Grammar

/-! ## Lookaheads -/

namespace Lookaheads

theorem exists_of_mem_get {l : Lookaheads} {n k : Nat} {t : Terminal} (h : t ∈ l.get n k) :
    ∃ row s, l[n]? = some row ∧ row[k]? = some s ∧ t ∈ s := by
  cases hrow : l[n]? with
  | none => simp [get, hrow] at h
  | some row =>
    cases hs : row[k]? with
    | none => simp [get, hrow, hs] at h
    | some s => exact ⟨row, s, rfl, hs, get_eq hrow hs ▸ h⟩

/-- What flows in without having been looked up, and from the states before the `m`-th. -/
def earlier (m : Nat) (w : Inflow) : Inflow :=
  if w.state < m then w else { w with flow := .constant w.flow.generated }

/-- What can be traced back from a place of a state along the given flows. -/
def traced (l : Lookaheads) (ways : List (Nat × Nat × Inflow)) (m p : Nat) : TerminalSet :=
  l.absorb (if m = 0 ∧ p = 0 then .singleton .endOfInput else .empty)
    ((Grammar.arriving ways m p).map (earlier m))

theorem mem_traced {l : Lookaheads} {ways : List (Nat × Nat × Inflow)} {m p : Nat} {t : Terminal}
    (h : t ∈ l.traced ways m p) : ((m = 0 ∧ p = 0) ∧ t = .endOfInput) ∨
      ∃ w, (m, p, w) ∈ ways ∧ (t ∈ w.flow.generated ∨
        w.flow.passes = true ∧ w.state < m ∧ t ∈ l.get w.state w.place) := by
  rcases mem_absorb.mp h with h | ⟨_, hmem, h⟩
  · split at h
    · rename_i hplace
      exact Or.inl ⟨hplace, TerminalSet.mem_singleton.mp h⟩
    · exact (TerminalSet.not_mem_empty t h).elim
  · obtain ⟨w, hw, rfl⟩ := List.mem_map.mp hmem
    refine Or.inr ⟨w, Grammar.mem_arriving.mp hw, ?_⟩
    unfold earlier at h
    split at h
    · rename_i hlt
      rw [Flow.mem_apply] at h
      exact h.imp_right fun h ↦ ⟨h.1, hlt, h.2⟩
    · exact Or.inl h

end Lookaheads

namespace Grammar

variable {α : Type} {g : Grammar α}

/-- The flows out of the states with the given numbers. -/
def waysFrom (g : Grammar α) (table : FlowTable) (states : List State) (ns : List Nat) :
    List (Nat × Nat × Inflow) :=
  ns.flatMap fun n ↦ states[n]?.toList.flatMap fun s ↦ s.kernel.zipIdx.flatMap fun (i, k) ↦
    (g.outflows table states s i).map fun (t, l, f) ↦ (t, l, Inflow.mk n k f)

theorem waysFrom_subset (g : Grammar α) (table : FlowTable) (states : List State)
    (ns : List Nat) : g.waysFrom table states ns ⊆ g.ways table states := by
  rintro ⟨m, l, w⟩ h
  obtain ⟨n, -, h⟩ := List.mem_flatMap.mp h
  obtain ⟨s, hs, h⟩ := List.mem_flatMap.mp h
  obtain ⟨⟨i, k⟩, hi, h⟩ := List.mem_flatMap.mp h
  obtain ⟨⟨m', l', f⟩, hout, heq⟩ := List.mem_map.mp h
  cases heq
  exact mem_ways.mpr ⟨s, i, Option.mem_toList.mp hs, List.mem_zipIdx_iff_getElem?.mp hi, hout⟩

/-- Lookaheads that are closed under all flows, and can be traced back to other states by the listed
numbers, are those of the grammar. -/
theorem lookaheads_eq_of_traced {l : Lookaheads} (hfits : l.Fits g.states) (hproper : l.Proper)
    (hend : .endOfInput ∈ l.get 0 0)
    (hclosed : ∀ w ∈ g.ways g.flows g.states,
      (w.2.2.flow.apply (l.get w.2.2.state w.2.2.place)).Within (l.get w.1 w.2.1))
    {sources : List (List Nat)} (hsources : sources.length = l.length)
    (htraced : ∀ r ∈ (l.zip sources).zipIdx, ∀ c ∈ r.1.1.zipIdx,
      c.1.Within (l.traced (g.waysFrom g.flows g.states r.1.2) r.2 c.2)) : g.lookaheads = l := by
  have habove : g.lookaheads.Within l :=
    lookaheads_within hfits hend fun m p n k f hway ↦ hclosed (m, p, ⟨n, k, f⟩) hway
  have hbelow : ∀ m p, (l.get m p).Within (g.lookaheads.get m p) := by
    intro m
    induction m using Nat.strong_induction_on with
    | _ m ih =>
      intro p t ht
      obtain ⟨row, s, hrow, hs, hmem⟩ := Lookaheads.exists_of_mem_get ht
      have hlt : m < sources.length := hsources ▸ (List.getElem?_eq_some_iff.mp hrow).1
      have hzip : (l.zip sources)[m]? = some (row, sources[m]) :=
        List.getElem?_zip_eq_some.mpr ⟨hrow, List.getElem?_eq_getElem hlt⟩
      have hwithin := htraced ((row, sources[m]), m) (List.mem_zipIdx_iff_getElem?.mpr hzip) (s, p)
        (List.mem_zipIdx_iff_getElem?.mpr hs)
      rcases Lookaheads.mem_traced (hwithin t hmem) with ⟨⟨rfl, rfl⟩, rfl⟩ | ⟨w, hw, h⟩
      · exact endOfInput_mem_get
      · have hway := g.waysFrom_subset g.flows g.states sources[m] hw
        obtain ⟨s', hs', hplace⟩ := exists_place_of_mem_ways hway
        refine mem_get_of_way hway hs' hplace (Flow.mem_apply.mpr ?_)
        exact h.imp_right fun ⟨hpasses, hearlier, ht⟩ ↦ ⟨hpasses, ih w.state hearlier _ t ht⟩
  exact habove.antisymm ⟨habove.lengths.symm, hbelow⟩ g.proper_lookaheads hproper

end Grammar

end PlainLedger
