import PlainLedger.Terminal

/-!
# Sets of terminals

A set is a bit mask with the terminal's index as bit number, so that union is one operation and
equality of masks decides whether anything new has arrived.
-/

namespace PlainLedger

structure TerminalSet where
  bits : Nat
  deriving DecidableEq, Repr

namespace TerminalSet

def empty : TerminalSet := ⟨0⟩

def singleton (t : Terminal) : TerminalSet := ⟨1 <<< t.index⟩

def union (s r : TerminalSet) : TerminalSet := ⟨s.bits ||| r.bits⟩

def contains (s : TerminalSet) (t : Terminal) : Bool := s.bits.testBit t.index

instance : Membership Terminal TerminalSet := ⟨fun s t ↦ s.contains t = true⟩

instance (t : Terminal) (s : TerminalSet) : Decidable (t ∈ s) :=
  inferInstanceAs (Decidable (s.contains t = true))

/-- The members, in table order. -/
def toList (s : TerminalSet) : List Terminal := Terminal.all.filter s.contains

theorem mem_iff {t : Terminal} {s : TerminalSet} : t ∈ s ↔ s.bits.testBit t.index = true := Iff.rfl

@[simp] theorem not_mem_empty (t : Terminal) : t ∉ empty := by simp [mem_iff, empty]

@[simp] theorem mem_singleton {s t : Terminal} : s ∈ singleton t ↔ s = t := by
  simp only [mem_iff, singleton, Nat.one_shiftLeft, Nat.testBit_two_pow, decide_eq_true_eq]
  exact ⟨fun h ↦ (Terminal.index_injective h).symm, fun h ↦ h ▸ rfl⟩

@[simp] theorem mem_union {t : Terminal} {s r : TerminalSet} : t ∈ s.union r ↔ t ∈ s ∨ t ∈ r := by
  simp [mem_iff, union]

@[simp] theorem mem_toList {t : Terminal} {s : TerminalSet} : t ∈ s.toList ↔ t ∈ s := by
  simp [toList, Terminal.mem_all, mem_iff, contains]

end TerminalSet

end PlainLedger
