/-!
# Line numbers

The lines that reports name. They are numbers of 32 bits; what lies outside is taken to the nearest
of them.
-/

namespace PlainLedger

abbrev Line := Fin 0x100000000

namespace Line

def clamp (n : Int) : Line := ⟨min n.toNat 0xffffffff, by omega⟩

theorem val_clamp (n : Int) : (clamp n).val = min n.toNat 0xffffffff := rfl

theorem clamp_mono {m n : Int} (h : m ≤ n) : clamp m ≤ clamp n := by
  simp only [Fin.le_def, val_clamp]
  omega

theorem clamp_of_mem {n : Nat} (h : n < 0x100000000) : clamp n = ⟨n, h⟩ := by
  apply Fin.ext
  simp only [val_clamp]
  omega

end Line

end PlainLedger
