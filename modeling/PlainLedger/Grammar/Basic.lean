import PlainLedger.Terminal

/-!
# Grammars

Context-free grammars over the ledger's terminals. Nonterminals are numbered in the order of
their declaration. A rule carries an action, which the grammar does not look at, and tokens may
be ranked to settle conflicts between rules.
-/

namespace PlainLedger

inductive Symbol where
  | terminal (t : Terminal)
  | nonterminal (n : Nat)
  deriving DecidableEq, Repr

inductive Associativity where
  | left
  | right
  /-- Ranked, and of two neighbours on one level neither comes first. -/
  | unordered
  deriving DecidableEq, Repr

/-- A higher level binds tighter. -/
structure Rank where
  level : Nat
  side : Associativity
  deriving DecidableEq, Repr

structure Rule (α : Type) where
  lhs : Nat
  rhs : List Symbol
  action : α
  /-- The token that lends the rule its rank, in place of the tokens of its right-hand side. -/
  rankedAs : Option Terminal := none

namespace Symbol

/-- Terminals come first, in table order, then nonterminals in order of declaration. -/
def order : Symbol → Nat
  | terminal t => t.index
  | nonterminal n => Terminal.count + n

instance : LT Symbol := ⟨fun x y ↦ x.order < y.order⟩

instance : DecidableLT Symbol := fun x y ↦ inferInstanceAs (Decidable (x.order < y.order))

def terminal? : Symbol → Option Terminal
  | terminal t => some t
  | nonterminal _ => none

def nonterminal? : Symbol → Option Nat
  | terminal _ => none
  | nonterminal n => some n

theorem order_injective {x y : Symbol} (h : x.order = y.order) : x = y := by
  cases x <;> cases y <;> simp only [order] at h
  · exact congrArg terminal (Terminal.index_injective h)
  · rename_i t n
    have := t.index_lt
    omega
  · rename_i n t
    have := t.index_lt
    omega
  · exact congrArg nonterminal (by omega)

end Symbol

/-- What is declared before a start symbol is chosen. -/
structure Draft (α : Type) where
  /-- The names of the nonterminals. -/
  names : List String
  /-- The ranked tokens, loosest level first. A later level overrides an earlier one. -/
  levels : List (Associativity × List Terminal)
  rules : List (Rule α)

namespace Draft

variable {α : Type} (d : Draft α)

def name (n : Nat) : String := d.names.getD n "?"

/-- Levels count from one. -/
def rank? (t : Terminal) : Option Rank :=
  ((d.levels.zipIdx 1).reverse.find? fun l ↦ decide (t ∈ l.1.2)).map fun l ↦ ⟨l.2, l.1.1⟩

/-- A rule has the rank of the token it names for that, and otherwise that of its last ranked
terminal. -/
def ruleRank? (r : Rule α) : Option Rank :=
  match r.rankedAs with
  | some t => d.rank? t
  | none => r.rhs.reverse.findSome? fun x ↦ x.terminal?.bind d.rank?

def symbolName : Symbol → String
  | .terminal t => t.name
  | .nonterminal n => d.name n

/-- A rule as text: `lhs: A b C`. -/
def describe (r : Rule α) : String :=
  let body := if r.rhs.isEmpty then ["%empty"] else r.rhs.map d.symbolName
  String.intercalate " " ((d.name r.lhs ++ ":") :: body)

/-- The nonterminal has a rule. -/
def Defined (n : Nat) : Prop := ∃ r ∈ d.rules, r.lhs = n

instance (n : Nat) : Decidable (d.Defined n) :=
  inferInstanceAs (Decidable (∃ r ∈ d.rules, r.lhs = n))

/-- Rules mention declared nonterminals only. -/
def Closed : Prop :=
  ∀ r ∈ d.rules, r.lhs < d.names.length ∧ ∀ n, .nonterminal n ∈ r.rhs → n < d.names.length

end Draft

/-- A grammar has a declared start symbol, a rule for each nonterminal, and leaves the error
symbol unranked. -/
structure Grammar (α : Type) extends Draft α where
  start : Nat
  start_lt : start < names.length
  rank?_error : toDraft.rank? .error = none
  defined : ∀ n < names.length, toDraft.Defined n

inductive Grammar.Fault where
  | undeclaredStart
  | rankedError
  | withoutRule (name : String)
  deriving DecidableEq, Repr

namespace Grammar.Fault

def message : Fault → String
  | undeclaredStart => "start symbol is not a declared nonterminal"
  | rankedError => "the error symbol cannot be given a precedence"
  | withoutRule name => s!"nonterminal `{name}` has no rules"

end Grammar.Fault

namespace Draft

variable {α : Type} (d : Draft α)

/-- The grammar of the draft with a start symbol. The start symbol is looked at first, then the
rank of the error symbol, then the nonterminals in order. -/
def grammar (start : Nat) : Except Grammar.Fault (Grammar α) :=
  if hs : start < d.names.length then
    if he : d.rank? .error = none then
      match hf : (List.range d.names.length).find? fun n ↦ !decide (d.Defined n) with
      | some n => .error (.withoutRule (d.name n))
      | none => .ok
        { d with
          start
          start_lt := hs
          rank?_error := he
          defined := fun n hn ↦ by simpa using List.find?_eq_none.mp hf n (List.mem_range.mpr hn) }
    else .error .rankedError
  else .error .undeclaredStart

end Draft

end PlainLedger
