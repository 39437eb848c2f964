import Mathlib
import PlainLedger.Proofs.Grammar.Forest

/-!
# Completing rules comes to an end

A stack of bounded height, of which rules are completed but nothing is read, comes to rest. What was
on the stack to begin with is solid, and so is what is made of it; everything else is made of
nothing. A rule that is made of two solid symbols or more leaves fewer of them. Any other one puts,
at some place of the stack, a symbol that derives what was there, or a solid symbol where there was
none: read as the digits of a number, the places of the stack count down.
-/

namespace PlainLedger.Grammar

variable {α : Type}

/-- A symbol on the stack, and whether anything of the original stack has gone into it. -/
structure Cell where
  symbol : Symbol
  solid : Bool

variable (g : Grammar α)

/-- The nonterminals that derive the symbol. -/
noncomputable def above (x : Symbol) : Finset Nat := by
  classical
  exact (Finset.range g.names.length).filter fun n ↦
    Relation.TransGen g.Produces [.nonterminal n] [x]

/-- Of two places that are equally solid, the one with the deriving symbol comes first, and solid
places come before the others. -/
noncomputable def digit (z : Cell) : Nat :=
  (g.above z.symbol).card + if z.solid then 0 else g.names.length + 1

/-- There are fewer digits than this, and one more for a place that is not taken. -/
def base : Nat := 2 * g.names.length + 3

/-- The number that the places of a stack spell. The topmost place, which is the last digit, comes
first. -/
noncomputable def spell (zs : List Cell) : Nat :=
  zs.foldr (fun z value ↦ value * g.base + g.digit z) 0

/-- How far a stack of at most `height` symbols is from rest. -/
noncomputable def distance (height : Nat) (zs : List Cell) : Nat :=
  zs.countP Cell.solid * g.base ^ (height + 1) +
    (g.spell zs + 1) * g.base ^ (height - zs.length)

/-- What is not solid derives nothing. -/
def Hollow (zs : List Cell) : Prop := ∀ z ∈ zs, z.solid = false → g.Derives [z.symbol] []

variable {g} {height : Nat} {z : Cell} {zs ys : List Cell}

theorem mem_above {x : Symbol} {n : Nat} :
    n ∈ g.above x ↔ n < g.names.length ∧ Relation.TransGen g.Produces [.nonterminal n] [x] := by
  simp [above]

theorem card_above_le (x : Symbol) : (g.above x).card ≤ g.names.length := by
  have hsubset : g.above x ⊆ Finset.range g.names.length := fun n hn ↦
    Finset.mem_range.mpr (mem_above.mp hn).1
  simpa using Finset.card_le_card hsubset

theorem card_above_lt (hacyclic : g.Acyclic) {n : Nat} {x : Symbol} (hn : n < g.names.length)
    (h : Relation.TransGen g.Produces [.nonterminal n] [x]) :
    (g.above (.nonterminal n)).card < (g.above x).card := by
  apply Finset.card_lt_card
  rw [Finset.ssubset_iff_of_subset]
  · exact ⟨n, mem_above.mpr ⟨hn, h⟩, fun hself ↦ hacyclic n (mem_above.mp hself).2⟩
  · intro k hk
    obtain ⟨hk, hderives⟩ := mem_above.mp hk
    exact mem_above.mpr ⟨hk, hderives.trans h⟩

theorem digit_lt (z : Cell) : g.digit z + 1 < g.base := by
  have hle := g.card_above_le z.symbol
  unfold digit base
  split <;> omega

@[simp] theorem spell_cons (z : Cell) (zs : List Cell) :
    g.spell (z :: zs) = g.spell zs * g.base + g.digit z := rfl

theorem spell_lt (zs : List Cell) : g.spell zs + 1 ≤ g.base ^ zs.length := by
  induction zs with
  | nil => exact le_rfl
  | cons z zs ih =>
    have hdigit := g.digit_lt z
    have hmul := Nat.mul_le_mul_right g.base ih
    rw [spell_cons, List.length_cons, pow_succ]
    rw [Nat.add_mul] at hmul
    omega

theorem spell_append_le (ws ys : List Cell) :
    g.spell ys * g.base ^ ws.length ≤ g.spell (ws ++ ys) := by
  induction ws with
  | nil => simp
  | cons w ws ih =>
    have hmul := Nat.mul_le_mul_right g.base ih
    rw [List.cons_append, spell_cons, List.length_cons, pow_succ, ← Nat.mul_assoc]
    omega

/-! ## One rule -/

/-- A symbol more on the stack is one digit more. -/
theorem spell_push_lt (z : Cell) (hroom : zs.length + 1 ≤ height) :
    (g.spell (z :: zs) + 1) * g.base ^ (height - (z :: zs).length) <
      (g.spell zs + 1) * g.base ^ (height - zs.length) := by
  have hdigit := g.digit_lt z
  have hpow : 0 < g.base ^ (height - (zs.length + 1)) := Nat.pow_pos (by unfold base; omega)
  have hheight : height - zs.length = height - (zs.length + 1) + 1 := by omega
  rw [List.length_cons, hheight, pow_succ, Nat.mul_comm (g.base ^ _) g.base, ← Nat.mul_assoc]
  apply Nat.mul_lt_mul_of_pos_right _ hpow
  rw [spell_cons, Nat.add_mul]
  omega

/-- A smaller digit in a place counts for more than all the places above it. -/
theorem spell_replace_lt {a : Cell} (ws : List Cell) (hdigit : g.digit a < g.digit z)
    (hroom : (ws ++ z :: ys).length ≤ height) :
    (g.spell (a :: ys) + 1) * g.base ^ (height - (a :: ys).length) <
      (g.spell (ws ++ z :: ys) + 1) * g.base ^ (height - (ws ++ z :: ys).length) := by
  simp only [List.length_append, List.length_cons] at hroom ⊢
  have hspell : g.spell (a :: ys) + 1 ≤ g.spell (z :: ys) := by
    rw [spell_cons, spell_cons]
    omega
  have hsplit : height - (ys.length + 1) = ws.length +
      (height - (ws.length + (ys.length + 1))) := by
    omega
  have hpow : 0 < g.base ^ (height - (ws.length + (ys.length + 1))) :=
    Nat.pow_pos (by unfold base; omega)
  calc (g.spell (a :: ys) + 1) * g.base ^ (height - (ys.length + 1))
      ≤ g.spell (z :: ys) * g.base ^ (height - (ys.length + 1)) :=
        Nat.mul_le_mul_right _ hspell
    _ = g.spell (z :: ys) * g.base ^ ws.length *
          g.base ^ (height - (ws.length + (ys.length + 1))) := by
        rw [hsplit, pow_add, Nat.mul_assoc]
    _ < (g.spell (ws ++ z :: ys) + 1) * g.base ^ (height - (ws.length + (ys.length + 1))) := by
        apply Nat.mul_lt_mul_of_pos_right _ hpow
        exact Nat.lt_succ_of_le (spell_append_le ws (z :: ys))

theorem distance_lt_of_spell {zs' : List Cell}
    (hcount : zs'.countP Cell.solid ≤ zs.countP Cell.solid)
    (hspell : (g.spell zs' + 1) * g.base ^ (height - zs'.length) <
      (g.spell zs + 1) * g.base ^ (height - zs.length)) :
    g.distance height zs' < g.distance height zs :=
  Nat.add_lt_add_of_le_of_lt (Nat.mul_le_mul_right _ hcount) hspell

theorem distance_lt_of_count {zs' : List Cell} (hroom : zs'.length ≤ height)
    (hcount : zs'.countP Cell.solid < zs.countP Cell.solid) :
    g.distance height zs' < g.distance height zs := by
  have hle : (g.spell zs' + 1) * g.base ^ (height - zs'.length) ≤ g.base ^ height := by
    calc (g.spell zs' + 1) * g.base ^ (height - zs'.length)
        ≤ g.base ^ zs'.length * g.base ^ (height - zs'.length) :=
          Nat.mul_le_mul_right _ (spell_lt zs')
      _ = g.base ^ height := by rw [← pow_add, Nat.add_sub_cancel' hroom]
  have hlt : g.base ^ height < g.base ^ (height + 1) :=
    Nat.pow_lt_pow_right (by unfold base; omega) (Nat.lt_succ_self _)
  have hmul := Nat.mul_le_mul_right (g.base ^ (height + 1)) (Nat.succ_le_of_lt hcount)
  unfold distance
  rw [Nat.succ_mul] at hmul
  omega

theorem derives_nil_of_hollow (h : g.Hollow zs) (hsolid : ∀ z ∈ zs, z.solid = false) :
    g.Derives (zs.map Cell.symbol) [] := by
  induction zs with
  | nil => exact .refl
  | cons z zs ih =>
    have hrest := ih (fun w hw ↦ h w (List.mem_cons_of_mem _ hw))
      fun w hw ↦ hsolid w (List.mem_cons_of_mem _ hw)
    have hfirst := (h z (List.mem_cons_self ..) (hsolid z (List.mem_cons_self ..))).append []
      (zs.map Cell.symbol)
    exact Relation.ReflTransGen.trans hfirst hrest

/-- A completed rule brings the stack nearer to rest. The cells of its right-hand side come in
source order. -/
theorem distance_complete (hg : g.Closed) (hacyclic : g.Acyclic) {k : Nat} {p : Rule α}
    (hrule : g.rules[k]? = some p) {cells : List Cell} (hcells : cells.map Cell.symbol = p.rhs)
    (hhollow : g.Hollow (cells.reverse ++ ys)) (hroom : (cells.reverse ++ ys).length ≤ height)
    (hroom' : ys.length + 1 ≤ height) :
    g.Hollow (⟨.nonterminal p.lhs, cells.any Cell.solid⟩ :: ys) ∧
      g.distance height (⟨.nonterminal p.lhs, cells.any Cell.solid⟩ :: ys) <
        g.distance height (cells.reverse ++ ys) := by
  have hproduces := produces_rhs hrule
  rw [← hcells] at hproduces
  have hlhs : p.lhs < g.names.length := (hg p (List.mem_of_getElem? hrule)).1
  have hin : g.Hollow cells := fun z hz ↦
    hhollow z (List.mem_append_left _ (List.mem_reverse.mpr hz))
  have hbelow : g.Hollow ys := fun z hz ↦ hhollow z (List.mem_append_right _ hz)
  constructor
  · intro z hz hsolid
    rcases List.mem_cons.mp hz with rfl | hz
    · have hnone : ∀ z ∈ cells, z.solid = false := by simpa using hsolid
      exact Relation.ReflTransGen.head hproduces (derives_nil_of_hollow hin hnone)
    · exact hbelow z hz hsolid
  · cases cells with
    | nil =>
      apply distance_lt_of_spell
      · simp
      · exact spell_push_lt _ hroom'
    | cons z cells =>
      rw [List.reverse_cons, List.append_assoc, List.singleton_append] at hroom ⊢
      have hrest : g.Hollow cells := fun w hw ↦ hin w (List.mem_cons_of_mem _ hw)
      by_cases hsolid : cells.any Cell.solid = true
      · by_cases hz : z.solid = true
        · -- two solid symbols become one
          apply distance_lt_of_count hroom'
          have hpos : 0 < cells.countP Cell.solid := by
            rw [List.countP_pos_iff]
            simpa using hsolid
          simp only [List.countP_append, List.countP_reverse, List.countP_cons, List.any_cons, hz,
            Bool.true_or, if_true]
          omega
        · -- a solid symbol takes the place of one made of nothing
          have hle := g.card_above_le (.nonterminal p.lhs)
          apply distance_lt_of_spell
          · have hpos : 0 < cells.countP Cell.solid := by
              rw [List.countP_pos_iff]
              simpa using hsolid
            simp only [List.countP_append, List.countP_reverse, List.countP_cons]
            split <;> omega
          · refine spell_replace_lt _ ?_ hroom
            simp only [digit, List.any_cons, hsolid, Bool.or_true, if_true, hz]
            simp only [Bool.false_eq_true, if_false]
            omega
      · -- the left-hand side derives the first symbol alone
        have hnone : ∀ w ∈ cells, w.solid = false := by simpa using hsolid
        have hderives : Relation.TransGen g.Produces [.nonterminal p.lhs] [z.symbol] := by
          have hfirst := (derives_nil_of_hollow hrest hnone).append [z.symbol] []
          simp only [List.append_nil, List.singleton_append] at hfirst
          exact .head' hproduces hfirst
        have hlt := card_above_lt hacyclic hlhs hderives
        have hany : (z :: cells).any Cell.solid = z.solid := by
          rw [List.any_cons, eq_false_of_ne_true hsolid, Bool.or_false]
        apply distance_lt_of_spell
        · simp only [List.countP_append, List.countP_reverse, List.countP_cons, hany]
          omega
        · refine spell_replace_lt _ ?_ hroom
          rw [digit, digit, hany]
          exact Nat.add_lt_add_right hlt _

end PlainLedger.Grammar
