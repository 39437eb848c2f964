import Mathlib
import PlainLedger.Automaton.Item
import PlainLedger.Token

/-!
# Derivation trees

A forest holds one derivation tree for each symbol of a list: the tree of a terminal is a leaf, the
tree of a nonterminal is a rule of it with the forest of the rule's right-hand side. So forests
exist for just those symbols that the leaves can be derived from, and the rules of a forest,
children before their parents and from left to right, are a rightmost derivation read backwards.
-/

namespace PlainLedger

/-- What a leaf stands for: a token, or text that is skipped after an error. -/
inductive Leaf where
  | token (t : Token)
  | skipped (span : Span)

namespace Leaf

def terminal : Leaf → Terminal
  | token t => t.kind
  | skipped _ => .error

def symbol (x : Leaf) : Symbol := .terminal x.terminal

/-- Tokens of the given kinds, with nothing else to tell. -/
def ofTerminals (ts : List Terminal) : List Leaf := ts.map fun t ↦ .token (.bare t .start)

theorem symbols_ofTerminals (ts : List Terminal) :
    (ofTerminals ts).map symbol = ts.map .terminal := by
  rw [ofTerminals, List.map_map]
  rfl

end Leaf

namespace Grammar

variable {α : Type}

section Derivations

variable (g : Grammar α)

/-- A nonterminal is replaced by a right-hand side of it. -/
inductive Produces : List Symbol → List Symbol → Prop where
  | rule {k : Nat} {p : Rule α} (h : g.rules[k]? = some p) (xs ys : List Symbol) :
      Produces (xs ++ .nonterminal p.lhs :: ys) (xs ++ p.rhs ++ ys)

def Derives : List Symbol → List Symbol → Prop := Relation.ReflTransGen g.Produces

/-- No nonterminal derives itself. -/
def Acyclic : Prop := ∀ n, ¬Relation.TransGen g.Produces [.nonterminal n] [.nonterminal n]

/-- The rules replace, one after the other, the last nonterminal that there is. -/
inductive Rightmost : List Symbol → List Nat → List Symbol → Prop where
  | refl (xs : List Symbol) : Rightmost xs [] xs
  | rule {k : Nat} {p : Rule α} {xs zs : List Symbol} {ts : List Terminal} {ks : List Nat}
      (h : g.rules[k]? = some p) (hrest : Rightmost (xs ++ p.rhs ++ ts.map .terminal) ks zs) :
      Rightmost (xs ++ .nonterminal p.lhs :: ts.map .terminal) (k :: ks) zs

end Derivations

variable {g : Grammar α}

theorem produces_rhs {k : Nat} {p : Rule α} (hrule : g.rules[k]? = some p) :
    g.Produces [.nonterminal p.lhs] p.rhs := by
  simpa using Produces.rule hrule [] []

theorem Produces.append {xs ys : List Symbol} (h : g.Produces xs ys) (us vs : List Symbol) :
    g.Produces (us ++ xs ++ vs) (us ++ ys ++ vs) := by
  cases h with
  | @rule k p hp xs ys =>
    have hrule := Produces.rule hp (us ++ xs) (ys ++ vs)
    simpa only [List.append_assoc, List.cons_append] using hrule

theorem Derives.append {xs ys : List Symbol} (h : g.Derives xs ys) (us vs : List Symbol) :
    g.Derives (us ++ xs ++ vs) (us ++ ys ++ vs) := by
  induction h with
  | refl => exact .refl
  | tail _ hstep ih => exact ih.tail (hstep.append us vs)

theorem Rightmost.trans {xs ys zs : List Symbol} {ks ls : List Nat} (h : g.Rightmost xs ks ys)
    (h' : g.Rightmost ys ls zs) : g.Rightmost xs (ks ++ ls) zs := by
  induction h with
  | refl => exact h'
  | rule hp _ ih => exact .rule hp (ih h')

/-- A rightmost derivation is a derivation. -/
theorem Rightmost.derives {xs ys : List Symbol} {ks : List Nat} (h : g.Rightmost xs ks ys) :
    g.Derives xs ys := by
  induction h with
  | refl => exact .refl
  | rule hp _ ih => exact .head (.rule hp _ _) ih

end Grammar

open Grammar

/-- A derivation tree for each of the symbols. -/
inductive Forest {α : Type} (g : Grammar α) : List Symbol → Type where
  | nil : Forest g []
  | leaf (x : Leaf) {xs : List Symbol} (rest : Forest g xs) : Forest g (x.symbol :: xs)
  | node (k : Nat) {p : Rule α} (h : g.rules[k]? = some p) (children : Forest g p.rhs)
      {xs : List Symbol} (rest : Forest g xs) : Forest g (.nonterminal p.lhs :: xs)

namespace Forest

variable {α : Type} {g : Grammar α} {xs ys : List Symbol}

/-- The leaves, from left to right. -/
def leaves : {xs : List Symbol} → Forest g xs → List Leaf
  | _, nil => []
  | _, leaf x rest => x :: rest.leaves
  | _, node _ _ children rest => children.leaves ++ rest.leaves

/-- The rules, children before their parents, from left to right. -/
def rules : {xs : List Symbol} → Forest g xs → List Nat
  | _, nil => []
  | _, leaf _ rest => rest.rules
  | _, node k _ children rest => children.rules ++ k :: rest.rules

def append : {xs : List Symbol} → Forest g xs → Forest g ys → Forest g (xs ++ ys)
  | _, nil, f => f
  | _, leaf x rest, f => leaf x (rest.append f)
  | _, node k h children rest, f => node k h children (rest.append f)

@[simp] theorem leaves_append (f : Forest g xs) (f' : Forest g ys) :
    (f.append f').leaves = f.leaves ++ f'.leaves := by
  induction f with
  | nil => rfl
  | leaf x rest ih => simp [append, leaves, ih]
  | node k h children rest _ ih => simp [append, leaves, ih]

@[simp] theorem rules_append (f : Forest g xs) (f' : Forest g ys) :
    (f.append f').rules = f.rules ++ f'.rules := by
  induction f with
  | nil => rfl
  | leaf x rest ih => simp [append, rules, ih]
  | node k h children rest _ ih => simp [append, rules, ih]

/-- The trees of the first symbols, and those of the others. -/
theorem exists_append (f : Forest g (xs ++ ys)) :
    ∃ (f₁ : Forest g xs) (f₂ : Forest g ys), f = f₁.append f₂ := by
  induction xs with
  | nil => exact ⟨.nil, f, rfl⟩
  | cons x xs ih =>
    cases f with
    | leaf x rest =>
      obtain ⟨f₁, f₂, rfl⟩ := ih rest
      exact ⟨.leaf x f₁, f₂, rfl⟩
    | node k h children rest =>
      obtain ⟨f₁, f₂, rfl⟩ := ih rest
      exact ⟨.node k h children f₁, f₂, rfl⟩

/-- Leaves alone. -/
def ofLeaves : (ls : List Leaf) → Forest g (ls.map Leaf.symbol)
  | [] => nil
  | x :: ls => leaf x (ofLeaves ls)

@[simp] theorem leaves_ofLeaves (ls : List Leaf) : (ofLeaves ls : Forest g _).leaves = ls := by
  induction ls with
  | nil => rfl
  | cons x ls ih => rw [ofLeaves, leaves, ih]

theorem rightmost_between (f : Forest g xs) (us : List Symbol) (ts : List Terminal) :
    g.Rightmost (us ++ xs ++ ts.map .terminal) f.rules.reverse
      (us ++ f.leaves.map Leaf.symbol ++ ts.map .terminal) := by
  induction f generalizing us ts with
  | nil => exact .refl _
  | leaf x rest ih =>
    have hrest := ih (us ++ [x.symbol]) ts
    simpa only [List.append_assoc, List.cons_append, List.nil_append, rules, leaves,
      List.map_cons] using hrest
  | @node k p h children xs rest ihc ihr =>
    -- the trees to the right come first, then the rule, and then the trees below it
    have hsymbols : rest.leaves.map Leaf.symbol =
        (rest.leaves.map Leaf.terminal).map Symbol.terminal := by
      rw [List.map_map]
      rfl
    have hrest := ihr (us ++ [.nonterminal p.lhs]) ts
    have hchildren := ihc us (rest.leaves.map Leaf.terminal ++ ts)
    have hrule := Rightmost.rule h hchildren
    have hall := hrest.trans
      (by simpa only [hsymbols, List.append_assoc, List.cons_append, List.nil_append,
        List.map_append] using hrule)
    simpa only [hsymbols, List.append_assoc, List.cons_append, List.nil_append, rules,
      leaves, List.map_append, List.reverse_append, List.reverse_cons] using hall

/-- The rules of a forest are a rightmost derivation of its leaves read backwards. -/
theorem rightmost (f : Forest g xs) :
    g.Rightmost xs f.rules.reverse (f.leaves.map Leaf.symbol) := by
  simpa using f.rightmost_between [] []

theorem derives (f : Forest g xs) : g.Derives xs (f.leaves.map Leaf.symbol) :=
  f.rightmost.derives

/-- A rule that is undone in what a forest stands for is one more rule in the forest. -/
theorem exists_of_produces (h : g.Produces xs ys) (f : Forest g ys) :
    ∃ f' : Forest g xs, f'.leaves = f.leaves ∧ f'.rules.length = f.rules.length + 1 := by
  cases h with
  | rule hp us vs =>
    obtain ⟨f', fvs, rfl⟩ := f.exists_append
    obtain ⟨fus, children, rfl⟩ := f'.exists_append
    refine ⟨fus.append (.node _ hp children fvs), by simp [leaves], ?_⟩
    simp only [rules, rules_append, List.length_append, List.length_cons]
    omega

/-- What leaves can be derived from, they have a forest for. -/
theorem exists_of_derives {ls : List Leaf} (h : g.Derives xs (ls.map Leaf.symbol)) :
    ∃ f : Forest g xs, f.leaves = ls := by
  induction h using Relation.ReflTransGen.head_induction_on with
  | refl => exact ⟨ofLeaves ls, leaves_ofLeaves ls⟩
  | head hstep _ ih =>
    obtain ⟨f, rfl⟩ := ih
    obtain ⟨f', hleaves, -⟩ := exists_of_produces hstep f
    exact ⟨f', hleaves⟩

end Forest

instance {α : Type} (d : Draft α) : Decidable d.Closed :=
  decidable_of_iff (∀ p ∈ d.rules, p.lhs < d.names.length ∧
      ∀ x ∈ p.rhs, ∀ n ∈ x.nonterminal?, n < d.names.length) <| by
    refine forall₂_congr fun p _ ↦ and_congr_right fun _ ↦ ⟨fun h n hn ↦ h _ hn n rfl, ?_⟩
    rintro h (t | n) hx n' hn'
    · cases hn'
    · cases hn'
      exact h n hx

namespace Grammar

variable {α : Type} {g : Grammar α}

theorem acyclic_of_terminal (h : ∀ p ∈ g.rules, ∃ t, .terminal t ∈ p.rhs) : g.Acyclic := by
  intro n hn
  have hterminal : ∀ xs, Relation.TransGen g.Produces [.nonterminal n] xs →
      ∃ t, .terminal t ∈ xs := by
    intro xs hxs
    induction hxs with
    | single hstep =>
      generalize [Symbol.nonterminal n] = us at hstep
      cases hstep with
      | rule hrule us vs =>
        obtain ⟨t, ht⟩ := h _ (List.mem_of_getElem? hrule)
        exact ⟨t, by simp [ht]⟩
    | tail _ hstep ih =>
      obtain ⟨t, ht⟩ := ih
      cases hstep with
      | rule hrule us vs =>
        refine ⟨t, ?_⟩
        simp only [List.mem_append, List.mem_cons, reduceCtorEq, false_or] at ht
        simp only [List.mem_append]
        tauto
  obtain ⟨t, ht⟩ := hterminal _ hn
  cases List.mem_singleton.mp ht

/-- A number in parentheses, as many as one likes. -/
def parenthesized : Grammar String where
  names := ["value"]
  levels := []
  rules := [⟨0, [.terminal .number], "number", none⟩,
    ⟨0, [.terminal .leftParen, .nonterminal 0, .terminal .rightParen], "group", none⟩]
  start := 0
  start_lt := by decide
  rank?_error := by decide
  defined := by decide

theorem acyclic_parenthesized : parenthesized.Acyclic := by
  refine acyclic_of_terminal fun p hp ↦ ?_
  simp only [parenthesized, List.mem_cons, List.not_mem_nil, or_false] at hp
  rcases hp with rfl | rfl
  · exact ⟨.number, List.mem_cons_self ..⟩
  · exact ⟨.leftParen, List.mem_cons_self ..⟩

end Grammar

end PlainLedger
