import PlainLedger.Proofs.Grammar.Forest

/-!
# What a forest ends with

A list of symbols ends with its last one, and if that may be made of nothing, with the one before it
as well. So if the rules of some symbols end with such symbols again, their texts end with terminals
that are among them.
-/

namespace PlainLedger

/-- The symbols that the list can end with are among `ends`, if those of `hollow` may be made of
nothing. -/
def EndsAmong (hollow ends : List Symbol) : List Symbol → Prop
  | [] => True
  | x :: xs => ((∀ y ∈ xs, y ∈ hollow) → x ∈ ends) ∧ EndsAmong hollow ends xs

instance decidableEndsAmong (hollow ends : List Symbol) :
    (xs : List Symbol) → Decidable (EndsAmong hollow ends xs)
  | [] => inferInstanceAs (Decidable True)
  | _ :: xs =>
    have := decidableEndsAmong hollow ends xs
    inferInstanceAs (Decidable (_ ∧ _))

/-- Nothing but symbols of `hollow` may be made of nothing, and the rules of symbols of `ends` end
with such symbols again. -/
structure Grammar.Margin {α : Type} (g : Grammar α) (hollow ends : List Symbol) : Prop where
  made : ∀ p ∈ g.rules, (∀ x ∈ p.rhs, x ∈ hollow) → .nonterminal p.lhs ∈ hollow
  among : ∀ p ∈ g.rules, .nonterminal p.lhs ∈ ends → EndsAmong hollow ends p.rhs

namespace Forest

variable {α : Type} {g : Grammar α} {hollow ends : List Symbol} {xs : List Symbol}

theorem mem_hollow_of_leaves (hg : g.Margin hollow ends) (f : Forest g xs) (h : f.leaves = []) :
    ∀ x ∈ xs, x ∈ hollow := by
  induction f with
  | nil => exact nofun
  | leaf x rest ih => cases h
  | node k hrule children rest ihc ihr =>
    obtain ⟨hchildren, hrest⟩ := List.append_eq_nil_iff.mp h
    exact List.forall_mem_cons.mpr
      ⟨hg.made _ (List.mem_of_getElem? hrule) (ihc hchildren), ihr hrest⟩

/-- The last leaf is one of the symbols that a text can end with. -/
theorem getLast?_leaves_mem (hg : g.Margin hollow ends) (f : Forest g xs)
    (h : EndsAmong hollow ends xs) : ∀ l ∈ f.leaves.getLast?, l.symbol ∈ ends := by
  induction f with
  | nil => exact nofun
  | leaf x rest ih =>
    obtain ⟨hlast, hrest⟩ := h
    rw [leaves]
    cases hleaves : rest.leaves with
    | nil =>
      rintro l ⟨⟩
      exact hlast (rest.mem_hollow_of_leaves hg hleaves)
    | cons l ls =>
      rw [List.getLast?_cons_cons, ← hleaves]
      exact ih hrest
  | node k hrule children rest ihc ihr =>
    obtain ⟨hlast, hrest⟩ := h
    rw [leaves]
    cases hleaves : rest.leaves with
    | nil =>
      rw [List.append_nil]
      exact ihc (hg.among _ (List.mem_of_getElem? hrule)
        (hlast (rest.mem_hollow_of_leaves hg hleaves)))
    | cons l ls =>
      rw [List.getLast?_append_cons, ← hleaves]
      exact ihr hrest

end Forest

end PlainLedger
