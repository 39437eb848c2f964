import PlainLedger.Proofs.Automaton.Leads

/-!
# One tree for each text

What the tables do with a text is one sequence of moves, in which leaves are read and rules are
completed, and the moves along a forest tell the forest. So where the tables lead along every
derivation tree of a text there is one tree only. Tables without conflicts and ranks do so, unless
the start symbol derives itself: where the whole text has been read it is accepted, and a rule that
could be completed in place of that is not recorded as a conflict.
-/

namespace PlainLedger

variable {α : Type}

/-- A leaf is read, or a rule is completed. -/
inductive Move where
  | read (x : Leaf)
  | complete (k : Nat)

namespace Forest

variable {g : Grammar α} {xs ys : List Symbol}

/-- What is done along the forest, in order. -/
def moves : {xs : List Symbol} → Forest g xs → List Move
  | _, nil => []
  | _, leaf x rest => .read x :: rest.moves
  | _, node k _ children rest => children.moves ++ .complete k :: rest.moves

@[simp] theorem moves_append (f : Forest g xs) (f' : Forest g ys) :
    (f.append f').moves = f.moves ++ f'.moves := by
  induction f with
  | nil => rfl
  | leaf x rest ih => simp [append, moves, ih]
  | node k h children rest _ ih => simp [append, moves, ih]

/-- A forest of one symbol is a leaf or a rule. -/
theorem single_cases {x : Symbol} (f : Forest g [x]) :
    (∃ (l : Leaf) (h : l.symbol = x), f = h ▸ leaf l nil) ∨
      ∃ (k : Nat) (p : Rule α) (hk : g.rules[k]? = some p) (children : Forest g p.rhs)
        (h : .nonterminal p.lhs = x), f = h ▸ node k hk children nil := by
  cases f with
  | leaf l rest =>
    cases rest
    exact Or.inl ⟨l, rfl, rfl⟩
  | node k hk children rest =>
    cases rest
    exact Or.inr ⟨k, _, hk, children, rfl, rfl⟩

theorem moves_cast {x y : Symbol} (h : x = y) (f : Forest g [x]) :
    (h ▸ f : Forest g [y]).moves = f.moves := by
  subst h
  rfl

/-- The moves tell the forest. They are read from the end: the last one says whether the last tree
is a leaf or which rule it is, and right before it come the moves along the children of the rule. -/
theorem eq_of_append_moves {f f' : Forest g xs} {as as' : List Move}
    (h : as ++ f.moves = as' ++ f'.moves) : f = f' ∧ as = as' := by
  induction hn : f.moves.length using Nat.strong_induction_on generalizing xs as as' with
  | _ n ih =>
  subst hn
  rcases List.eq_nil_or_concat' xs with rfl | ⟨ys, x, rfl⟩
  · cases f
    cases f'
    exact ⟨rfl, by simpa [moves] using h⟩
  · obtain ⟨before, last, rfl⟩ := f.exists_append
    obtain ⟨before', last', rfl⟩ := f'.exists_append
    rw [moves_append, moves_append, ← List.append_assoc, ← List.append_assoc] at h
    rcases last.single_cases with ⟨l, rfl, rfl⟩ | ⟨k, p, hk, children, rfl, rfl⟩ <;>
      rcases last'.single_cases with ⟨l', hx, rfl⟩ | ⟨k', p', hk', children', hx, rfl⟩ <;>
      simp only [moves_cast, moves, ← List.append_assoc] at h <;>
      obtain ⟨hinit, hlast⟩ := List.append_inj' h rfl
    · cases hlast
      obtain ⟨rfl, rfl⟩ := ih before.moves.length (by simp [moves]) hinit rfl
      exact ⟨rfl, rfl⟩
    · cases hlast
    · cases hlast
    · cases hlast
      cases Option.some.inj (hk.symm.trans hk')
      obtain ⟨rfl, hbefore⟩ := ih children.moves.length (by simp [moves]; omega) hinit rfl
      obtain ⟨rfl, rfl⟩ := ih before.moves.length (by simp [moves]) hbefore rfl
      exact ⟨rfl, rfl⟩

/-- Each leaf is one of the symbols, or some rule mentions it. -/
theorem symbol_mem_of_mem_leaves {x : Leaf} (f : Forest g xs) (hx : x ∈ f.leaves) :
    x.symbol ∈ xs ∨ ∃ p ∈ g.rules, x.symbol ∈ p.rhs := by
  induction f with
  | nil => cases hx
  | leaf y rest ih =>
    rcases List.mem_cons.mp hx with rfl | hx
    · exact Or.inl (List.mem_cons_self ..)
    · exact (ih hx).imp_left (List.mem_cons_of_mem _)
  | node k h children rest ihc ihr =>
    rcases List.mem_append.mp hx with hx | hx
    · exact Or.inr ((ihc hx).elim (fun hx ↦ ⟨_, List.mem_of_getElem? h, hx⟩) id)
    · exact (ihr hx).imp_left (List.mem_cons_of_mem _)

end Forest

/-! ## One sequence of moves -/

namespace Grammar

section Moves

variable (g : Grammar α)

/-- What comes next, of the leaves that are left. -/
def nextOf (ls : List Leaf) : Terminal := (ls.head?.map Leaf.terminal).getD .endOfInput

/-- The next move on a path, the last state of which comes first, with the leaves that are left. -/
inductive Advances : List Nat × List Leaf → Move → List Nat × List Leaf → Prop where
  | read {n m : Nat} {ss : List Nat} {x : Leaf} {ls : List Leaf} {row : Row}
      (hrow : g.tables.row? n = some row) (hdecide : row.decide x.terminal = some (.shift m)) :
      Advances (n :: ss, x :: ls) (.read x) (m :: n :: ss, ls)
  | complete {n y m k : Nat} {ss below : List Nat} {ls : List Leaf} {row : Row} {p : Rule α}
      (hrow : g.tables.row? n = some row) (hdecide : row.decide (nextOf ls) = some (.reduce k))
      (hrule : g.rules[k]? = some p) (hbelow : (n :: ss).drop p.rhs.length = y :: below)
      (hedge : g.Edge y (.nonterminal p.lhs) m) :
      Advances (n :: ss, ls) (.complete k) (m :: y :: below, ls)

/-- The moves that are made one after the other. -/
inductive Makes : List Nat × List Leaf → List Move → List Nat × List Leaf → Prop where
  | refl (c : List Nat × List Leaf) : Makes c [] c
  | head {c c' d : List Nat × List Leaf} {a : Move} {as : List Move} (h : g.Advances c a c')
      (hrest : Makes c' as d) : Makes c (a :: as) d

end Moves

variable {g : Grammar α}

theorem Makes.trans {c c' d : List Nat × List Leaf} {as bs : List Move} (h : g.Makes c as c')
    (h' : g.Makes c' bs d) : g.Makes c (as ++ bs) d := by
  induction h with
  | refl => exact h'
  | head hstep _ ih => exact .head hstep (ih h')

/-- The tables leave no choice. -/
theorem Advances.unique {c d d' : List Nat × List Leaf} {a a' : Move} (h : g.Advances c a d)
    (h' : g.Advances c a' d') : a = a' ∧ d = d' := by
  cases h with
  | read hrow hdecide =>
    cases h' with
    | read hrow' hdecide' =>
      cases hrow.symm.trans hrow'
      cases hdecide.symm.trans hdecide'
      exact ⟨rfl, rfl⟩
    | complete hrow' hdecide' =>
      cases hrow.symm.trans hrow'
      cases hdecide.symm.trans hdecide'
  | complete hrow hdecide hrule hbelow hedge =>
    cases h' with
    | read hrow' hdecide' =>
      cases hrow.symm.trans hrow'
      cases hdecide.symm.trans hdecide'
    | complete hrow' hdecide' hrule' hbelow' hedge' =>
      cases hrow.symm.trans hrow'
      cases hdecide.symm.trans hdecide'
      cases hrule.symm.trans hrule'
      cases hbelow.symm.trans hbelow'
      cases hedge.unique hedge'
      exact ⟨rfl, rfl⟩

/-- Where no move is left to make, the moves so far are all there are. -/
theorem Makes.unique {c d d' : List Nat × List Leaf} {as as' : List Move} (h : g.Makes c as d)
    (h' : g.Makes c as' d') (hd : ∀ a e, ¬g.Advances d a e) (hd' : ∀ a e, ¬g.Advances d' a e) :
    as = as' := by
  induction h generalizing as' with
  | refl =>
    cases h' with
    | refl => rfl
    | head hstep => exact (hd _ _ hstep).elim
  | head hstep _ ih =>
    cases h' with
    | refl => exact (hd' _ _ hstep).elim
    | head hstep' hrest' =>
      obtain ⟨rfl, rfl⟩ := hstep.unique hstep'
      rw [ih hrest' hd]

end Grammar

open Grammar

namespace Leads

variable {g : Grammar α} {xs : List Symbol} {n n' : Nat} {f : Forest g xs} {t : Terminal}

/-- Where the tables lead along a forest, the moves along it are made, and a state for each symbol
comes to stand on the path. -/
theorem makes (h : Leads g n f t n') (ls : List Leaf) (ht : nextOf ls = t) (ss : List Nat) :
    ∃ ss', g.Makes (n :: ss, f.leaves ++ ls) f.moves (n' :: ss', ls) ∧
      (n' :: ss').drop xs.length = n :: ss := by
  induction h generalizing ls ss with
  | nil => exact ⟨ss, .refl _, rfl⟩
  | @leaf xs n m n' x rest t row hrow hdecide _ ih =>
    obtain ⟨ss', hmakes, hdrop⟩ := ih ls ht (n :: ss)
    refine ⟨ss', .head (.read hrow hdecide) hmakes, ?_⟩
    rw [List.length_cons, ← List.drop_drop, hdrop, List.drop_one, List.tail_cons]
  | @node xs n n₁ m n' k p hrule children rest t row _ hrow hdecide hedge _ ihc ihr =>
    have hnext : nextOf (rest.leaves ++ ls) = rest.first t := by
      unfold nextOf Forest.first
      cases rest.leaves with
      | nil => exact ht
      | cons x l => rfl
    obtain ⟨ss₁, hmakes₁, hdrop₁⟩ := ihc _ hnext ss
    obtain ⟨ss', hmakes, hdrop⟩ := ihr ls ht (n :: ss)
    refine ⟨ss', ?_, ?_⟩
    · rw [Forest.leaves, List.append_assoc]
      exact hmakes₁.trans (.head (.complete hrow (hnext ▸ hdecide) hrule hdrop₁ hedge) hmakes)
    · rw [List.length_cons, ← List.drop_drop, hdrop, List.drop_one, List.tail_cons]

/-- Along trees of the same text the tables lead to the same end only if the trees are the same. -/
theorem eq_of_leaves {f' : Forest g xs} {row row' : Row} {m : Nat}
    (h : Leads g n f .endOfInput n') (h' : Leads g n f' .endOfInput m)
    (hrow : g.tables.row? n' = some row) (hrow' : g.tables.row? m = some row')
    (haccept : row.decide .endOfInput = some .accept)
    (haccept' : row'.decide .endOfInput = some .accept) (hleaves : f.leaves = f'.leaves) :
    f = f' := by
  -- a text that is accepted is left alone
  have hstop : ∀ {n : Nat} {row : Row} {ss : List Nat}, g.tables.row? n = some row →
      row.decide .endOfInput = some .accept → ∀ a e, ¬g.Advances (n :: ss, []) a e := by
    intro n row ss hrow haccept a e hstep
    cases hstep with
    | complete hrow' hdecide =>
      cases hrow.symm.trans hrow'
      cases haccept.symm.trans hdecide
  obtain ⟨ss, hmakes, -⟩ := h.makes [] rfl []
  obtain ⟨ss', hmakes', -⟩ := h'.makes [] rfl []
  rw [← hleaves] at hmakes'
  have hmoves : [] ++ f.moves = [] ++ f'.moves :=
    hmakes.unique hmakes' (hstop hrow haccept) (hstop hrow' haccept')
  exact (Forest.eq_of_append_moves hmoves).1

end Leads

/-! ## Grammars without conflicts -/

namespace Grammar

variable {g : Grammar α}

/-- No two derivation trees of the start symbol have the same leaves. -/
def Unambiguous (g : Grammar α) : Prop :=
  ∀ f f' : Forest g [.nonterminal g.start], f.leaves = f'.leaves → f = f'

/-- What derives itself, and some text, is derived in more than one way. -/
theorem not_unambiguous_of_cycle
    (hcycle : Relation.TransGen g.Produces [.nonterminal g.start] [.nonterminal g.start])
    (f : Forest g [.nonterminal g.start]) : ¬g.Unambiguous := by
  have hmore : ∀ {xs : List Symbol}, Relation.TransGen g.Produces xs [.nonterminal g.start] →
      ∃ f' : Forest g xs, f'.leaves = f.leaves ∧ f.rules.length < f'.rules.length := by
    intro xs hxs
    induction hxs using Relation.TransGen.head_induction_on with
    | single hstep =>
      obtain ⟨f', hleaves, hlength⟩ := Forest.exists_of_produces hstep f
      exact ⟨f', hleaves, by omega⟩
    | head hstep _ ih =>
      obtain ⟨f', hleaves, hlength⟩ := ih
      obtain ⟨f'', hleaves', hlength'⟩ := Forest.exists_of_produces hstep f'
      exact ⟨f'', hleaves'.trans hleaves, by omega⟩
  obtain ⟨f', hleaves, hlength⟩ := hmore hcycle
  intro h
  rw [h f' f hleaves] at hlength
  exact lt_irrefl _ hlength

/-- A grammar without ranks, for which no conflict is recorded, is unambiguous, unless its start
symbol derives itself as well as some text. -/
theorem unambiguous_iff (g : Grammar α) (hclosed : g.Closed)
    (hend : ∀ p ∈ g.rules, .terminal .endOfInput ∉ p.rhs) (hlevels : g.levels = [])
    (hconflicts : g.tables.conflicts = []) :
    g.Unambiguous ↔
      ¬(Relation.TransGen g.Produces [.nonterminal g.start] [.nonterminal g.start] ∧
        ∃ ts : List Terminal, g.Derives [.nonterminal g.start] (ts.map .terminal)) := by
  constructor
  · rintro h ⟨hcycle, ts, hts⟩
    have hleaves : ts.map Symbol.terminal =
        (ts.map fun t ↦ Leaf.token (.bare t .start)).map Leaf.symbol := by
      rw [List.map_map]
      rfl
    rw [hleaves] at hts
    obtain ⟨f, -⟩ := Forest.exists_of_derives hts
    exact not_unambiguous_of_cycle hcycle f h
  · intro h f f' hleaves
    have hstart : ¬Relation.TransGen g.Produces [.nonterminal g.start] [.nonterminal g.start] := by
      intro hcycle
      refine h ⟨hcycle, f.leaves.map Leaf.terminal, ?_⟩
      have hf := f.derives
      rwa [show f.leaves.map Leaf.symbol = (f.leaves.map Leaf.terminal).map Symbol.terminal by
        rw [List.map_map]; rfl] at hf
    have hends : ∀ f : Forest g [.nonterminal g.start], ∀ x ∈ f.leaves,
        x.terminal ≠ .endOfInput := by
      intro f x hx hterminal
      have hsymbol : x.symbol = .terminal .endOfInput := congrArg Symbol.terminal hterminal
      rcases f.symbol_mem_of_mem_leaves hx with hx | ⟨p, hp, hx⟩
      · rw [hsymbol] at hx
        cases List.mem_singleton.mp hx
      · exact hend p hp (hsymbol ▸ hx)
    obtain ⟨n, row, hleads, hrow, haccept⟩ :=
      exists_leads_start hclosed hstart hlevels hconflicts f (hends f)
    obtain ⟨n', row', hleads', hrow', haccept'⟩ :=
      exists_leads_start hclosed hstart hlevels hconflicts f' (hends f')
    exact hleads.eq_of_leaves hleads' hrow hrow' haccept haccept' hleaves

/-- A number in parentheses is read in one way. -/
theorem unambiguous_parenthesized :
    (parenthesized.Closed ∧ (∀ p ∈ parenthesized.rules, .terminal .endOfInput ∉ p.rhs) ∧
      parenthesized.levels = [] ∧ parenthesized.tables.conflicts = []) ∧
    parenthesized.Unambiguous := by
  have hclosed : parenthesized.Closed := by decide
  have hend : ∀ p ∈ parenthesized.rules, .terminal .endOfInput ∉ p.rhs := by decide
  have hconflicts : parenthesized.tables.conflicts = [] := by decide +kernel
  exact ⟨⟨hclosed, hend, rfl, hconflicts⟩,
    (unambiguous_iff parenthesized hclosed hend rfl hconflicts).mpr
      fun h ↦ acyclic_parenthesized _ h.1⟩

/-- A value is a value or a group, and a group is a value or a number. -/
def entangled : Grammar String where
  names := ["value", "group"]
  levels := []
  rules := [⟨0, [.nonterminal 0], "same", none⟩, ⟨0, [.nonterminal 1], "group", none⟩,
    ⟨1, [.nonterminal 0], "value", none⟩, ⟨1, [.terminal .number], "number", none⟩]
  start := 0
  start_lt := by decide
  rank?_error := by decide
  defined := by decide

/-- Where a value has been read and the text ends, two rules could be completed, and the value be
accepted as well. No conflict is recorded, and the text is ambiguous. -/
theorem ambiguous_entangled :
    entangled.Closed ∧ (∀ p ∈ entangled.rules, .terminal .endOfInput ∉ p.rhs) ∧
      entangled.levels = [] ∧ entangled.tables.conflicts = [] ∧ ¬entangled.Unambiguous := by
  have hvalue : entangled.rules[0]? = some ⟨0, [.nonterminal 0], "same", none⟩ := rfl
  have hgroup : entangled.rules[1]? = some ⟨0, [.nonterminal 1], "group", none⟩ := rfl
  have hnumber : entangled.rules[3]? = some ⟨1, [.terminal .number], "number", none⟩ := rfl
  have hcycle : Relation.TransGen entangled.Produces [.nonterminal 0] [.nonterminal 0] :=
    .single (.rule hvalue [] [])
  refine ⟨by decide, by decide, rfl, by decide +kernel, not_unambiguous_of_cycle hcycle ?_⟩
  exact .node 1 hgroup (.node 3 hnumber (.leaf (.token (.bare .number .start)) .nil) .nil) .nil

end Grammar

end PlainLedger
