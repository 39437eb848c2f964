import Mathlib.Data.List.Basic
import Mathlib.Tactic.SplitIfs
import PlainLedger.Book.Literal
import PlainLedger.Proofs.Token.Rendering

/-!
# Dates as they are written

A date of a ledger is written as a year, a month and a day of four, two and two digits, with two
marks between them that are hyphens or slashes. What is read beyond the two forms of the
documentation, `YYYY-MM-DD` and `YYYY/MM/DD`, are dates with two different marks, and dates with a
sign before the year, for which a slash is as good as a hyphen.
-/

namespace PlainLedger

/-- The text writes the number in so many digits. -/
structure Text.IsNumeral (width n : Nat) (cs : List Char) : Prop where
  length : cs.length = width
  digits : ∀ c ∈ cs, c.isDigit = true
  value : Text.ofDigits cs = n

theorem Text.IsNumeral.exists_four {n : Nat} {cs : List Char} (h : Text.IsNumeral 4 n cs) :
    ∃ c₁ c₂ c₃ c₄, cs = [c₁, c₂, c₃, c₄] := by
  obtain ⟨c₁, rest, rfl⟩ := List.exists_cons_of_length_eq_add_one h.length
  obtain ⟨c₂, c₃, c₄, rfl⟩ := List.length_eq_three.mp (Nat.succ.inj h.length)
  exact ⟨c₁, c₂, c₃, c₄, rfl⟩

open Text

namespace Date

/-- The characters that may stand between the parts of a date. -/
def IsMark (c : Char) : Prop := c = '-' ∨ c = '/'

instance (c : Char) : Decidable (IsMark c) := inferInstanceAs (Decidable (_ ∨ _))

/-- What may stand before a year, and whether the year is a negative one then. -/
inductive Sign : Bool → List Char → Prop where
  | absent : Sign false []
  | plus : Sign false ['+']
  | minus {c : Char} (hc : IsMark c) : Sign true [c]

/-- The text is the sign, the year, a mark, the month, another mark and the day. -/
def Spelled (sign : List Char) (first second : Char) (year month day : Nat) (cs : List Char) :
    Prop :=
  ∃ ys ms ds, cs = sign ++ ys ++ first :: (ms ++ second :: ds) ∧
    IsNumeral 4 year ys ∧ IsNumeral 2 month ms ∧ IsNumeral 2 day ds

/-- The text writes the parts of a date in one of the two documented forms. -/
def Documented (s : String) (year : Int) (month day : Nat) : Prop :=
  ∃ mark, ∃ n : Nat, IsMark mark ∧ Spelled [] mark mark n month day s.toList ∧ year = n

/-- The text writes the parts of a date in a form that is read. -/
def Readable (s : String) (year : Int) (month day : Nat) : Prop :=
  ∃ negative sign first second, ∃ n : Nat, Sign negative sign ∧ IsMark first ∧ IsMark second ∧
    Spelled sign first second n month day s.toList ∧ year = if negative then -(n : Int) else n

theorem Documented.readable {s : String} {year : Int} {month day : Nat}
    (h : Documented s year month day) : Readable s year month day := by
  obtain ⟨mark, n, hmark, hspelled, hyear⟩ := h
  exact ⟨false, [], mark, mark, n, .absent, hmark, hmark, hspelled, hyear⟩

/-! ## Slashes as hyphens -/

/-- A slash is taken for a hyphen. -/
def hyphened (c : Char) : Char := if c = '/' then '-' else c

theorem hyphened_eq_hyphen {c : Char} : hyphened c = '-' ↔ IsMark c := by
  unfold hyphened IsMark
  split_ifs with h <;> simp [h]

theorem hyphened_of_isDigit {c : Char} (h : c.isDigit = true) : hyphened c = c := by
  refine if_neg ?_
  rintro rfl
  cases h

theorem map_hyphened {cs : List Char} (h : ∀ c ∈ cs, c.isDigit = true) : cs.map hyphened = cs :=
  (List.map_congr_left fun c hc ↦ hyphened_of_isDigit (h c hc)).trans (List.map_id cs)

/-- Digits are not made from anything else. -/
theorem eq_of_map_hyphened {cs ds : List Char} (h : cs.map hyphened = ds)
    (hds : ∀ c ∈ ds, c.isDigit = true) : cs = ds := by
  have hcs : ∀ c ∈ cs, c.isDigit = true := by
    intro c hc
    have hdigit : (hyphened c).isDigit = true := hds _ (h ▸ List.mem_map_of_mem hc)
    have hne : c ≠ '/' := by
      rintro rfl
      cases hdigit
    rwa [hyphened, if_neg hne] at hdigit
  rw [← h, map_hyphened hcs]

section Spelled

variable {sign cs rest : List Char} {first second c : Char} {year month day : Nat}
  {negative : Bool} {d : Date}

theorem spelled_append : Spelled [] first second year month day rest →
    Spelled sign first second year month day (sign ++ rest) := by
  rintro ⟨ys, ms, ds, rfl, hyear, hmonth, hday⟩
  exact ⟨ys, ms, ds, (List.append_assoc ..).symm, hyear, hmonth, hday⟩

/-- Where slashes are hyphens, all marks are. -/
theorem spelled_map_hyphened : Spelled [] '-' '-' year month day (cs.map hyphened) ↔
    ∃ first second, IsMark first ∧ IsMark second ∧ Spelled [] first second year month day cs := by
  constructor
  · rintro ⟨ys, ms, ds, heq, hyear, hmonth, hday⟩
    obtain ⟨cs₁, cs₂, rfl, hys, heq⟩ := List.map_eq_append_iff.mp heq
    obtain ⟨first, cs₃, rfl, hfirst, heq⟩ := List.map_eq_cons_iff.mp heq
    obtain ⟨cs₄, cs₅, rfl, hms, heq⟩ := List.map_eq_append_iff.mp heq
    obtain ⟨second, cs₆, rfl, hsecond, hds⟩ := List.map_eq_cons_iff.mp heq
    obtain rfl := eq_of_map_hyphened hys hyear.digits
    obtain rfl := eq_of_map_hyphened hms hmonth.digits
    obtain rfl := eq_of_map_hyphened hds hday.digits
    exact ⟨first, second, hyphened_eq_hyphen.mp hfirst, hyphened_eq_hyphen.mp hsecond, cs₁, cs₄,
      cs₆, rfl, hyear, hmonth, hday⟩
  · rintro ⟨first, second, hfirst, hsecond, ys, ms, ds, rfl, hyear, hmonth, hday⟩
    refine ⟨ys, ms, ds, ?_, hyear, hmonth, hday⟩
    simp only [List.nil_append, List.map_append, List.map_cons, map_hyphened hyear.digits,
      map_hyphened hmonth.digits, map_hyphened hday.digits, hyphened_eq_hyphen.mpr hfirst,
      hyphened_eq_hyphen.mpr hsecond]

/-! ## Reading -/

theorem ofParts?_eq_some_iff {year : Int} :
    ofParts? year month day = some d ↔ d.year = year ∧ d.month = month ∧ d.day = day := by
  unfold ofParts?
  split_ifs with h
  · rw [Option.some.injEq]
    constructor
    · rintro rfl
      exact ⟨rfl, rfl, rfl⟩
    · rintro ⟨rfl, rfl, rfl⟩
      rfl
  · refine iff_of_false nofun ?_
    rintro ⟨rfl, rfl, rfl⟩
    exact h d.isDate

theorem ofDigits?_eq_some_iff : ofDigits? negative cs = some d ↔
    ∃ n : Nat, Spelled [] '-' '-' n d.month d.day cs ∧
      d.year = if negative then -(n : Int) else n := by
  constructor
  · intro h
    unfold ofDigits? at h
    split at h
    · rename_i y₁ y₂ y₃ y₄ m₁ m₂ d₁ d₂
      split at h
      · rename_i hdigits
        obtain ⟨hyear, hmonth, hday⟩ := ofParts?_eq_some_iff.mp h
        simp only [List.all_cons, List.all_nil, Bool.and_true, Bool.and_eq_true] at hdigits
        refine ⟨ofDigits [y₁, y₂, y₃, y₄],
          ⟨[y₁, y₂, y₃, y₄], [m₁, m₂], [d₁, d₂], rfl, ?_, ?_, ?_⟩, hyear⟩
        · exact ⟨rfl, by simp [hdigits], rfl⟩
        · exact ⟨rfl, by simp [hdigits], hmonth.symm⟩
        · exact ⟨rfl, by simp [hdigits], hday.symm⟩
      · cases h
    · cases h
  · rintro ⟨n, ⟨ys, ms, ds, rfl, hyear, hmonth, hday⟩, hsigned⟩
    obtain ⟨y₁, y₂, y₃, y₄, rfl⟩ := hyear.exists_four
    obtain ⟨m₁, m₂, rfl⟩ := List.length_eq_two.mp hmonth.length
    obtain ⟨d₁, d₂, rfl⟩ := List.length_eq_two.mp hday.length
    have hdigits : [y₁, y₂, y₃, y₄, m₁, m₂, d₁, d₂].all Char.isDigit = true := by
      have := hyear.digits
      have := hmonth.digits
      have := hday.digits
      simp_all
    simp only [ofDigits?, List.nil_append, List.cons_append]
    rw [if_pos hdigits, ofParts?_eq_some_iff, hyear.value, hmonth.value, hday.value]
    exact ⟨hsigned, rfl, rfl⟩

/-- A year begins with a digit. -/
theorem isDigit_of_ofDigits? (h : ofDigits? negative (c :: rest) = some d) : c.isDigit = true := by
  obtain ⟨n, ⟨ys, ms, ds, heq, hyear, -, -⟩, -⟩ := ofDigits?_eq_some_iff.mp h
  obtain ⟨y₁, y₂, y₃, y₄, rfl⟩ := hyear.exists_four
  obtain ⟨rfl, -⟩ := List.cons.inj heq
  exact hyear.digits c (List.mem_cons_self ..)

/-- What comes before the digits of a year is its sign. -/
theorem ofChars?_map_hyphened : ofChars? (cs.map hyphened) = some d ↔
    ∃ negative sign rest, Sign negative sign ∧ cs = sign ++ rest ∧
      ofDigits? negative (rest.map hyphened) = some d := by
  constructor
  · intro h
    unfold ofChars? at h
    split at h
    · rename_i heq
      obtain ⟨c, rest, rfl, hc, rfl⟩ := List.map_eq_cons_iff.mp heq
      exact ⟨true, [c], rest, .minus (hyphened_eq_hyphen.mp hc), rfl, h⟩
    · rename_i heq
      obtain ⟨c, rest, rfl, hc, rfl⟩ := List.map_eq_cons_iff.mp heq
      have hplus : c = '+' := by
        unfold hyphened at hc
        split_ifs at hc
        · cases hc
        · exact hc
      exact ⟨false, [c], rest, hplus ▸ .plus, rfl, h⟩
    · exact ⟨false, [], cs, .absent, rfl, h⟩
  · rintro ⟨negative, sign, rest, hsign, rfl, h⟩
    cases hsign with
    | plus => exact h
    | minus hc =>
      rw [List.singleton_append, List.map_cons, hyphened_eq_hyphen.mpr hc]
      exact h
    | absent =>
      rw [List.nil_append]
      cases hmap : rest.map hyphened with
      | nil =>
        rw [hmap] at h
        cases h
      | cons c rest =>
        rw [hmap] at h
        have hdigit := isDigit_of_ofDigits? h
        unfold ofChars?
        split
        · rename_i heq
          obtain ⟨rfl, -⟩ := List.cons.inj heq
          cases hdigit
        · rename_i heq
          obtain ⟨rfl, -⟩ := List.cons.inj heq
          cases hdigit
        · exact h

theorem ofLiteral?_eq_some_iff {s : String} :
    ofLiteral? s = some d ↔ Readable s d.year d.month d.day := by
  have hliteral : ofLiteral? s = ofChars? (s.toList.map hyphened) := rfl
  rw [hliteral, ofChars?_map_hyphened]
  constructor
  · rintro ⟨negative, sign, rest, hsign, heq, h⟩
    obtain ⟨n, hspelled, hyear⟩ := ofDigits?_eq_some_iff.mp h
    obtain ⟨first, second, hfirst, hsecond, hspelled⟩ := spelled_map_hyphened.mp hspelled
    exact ⟨negative, sign, first, second, n, hsign, hfirst, hsecond, heq ▸ spelled_append hspelled,
      hyear⟩
  · rintro ⟨negative, sign, first, second, n, hsign, hfirst, hsecond, ⟨ys, ms, ds, heq, hparts⟩,
      hyear⟩
    rw [List.append_assoc] at heq
    refine ⟨negative, sign, _, hsign, heq, ofDigits?_eq_some_iff.mpr ⟨n, ?_, hyear⟩⟩
    exact spelled_map_hyphened.mpr ⟨first, second, hfirst, hsecond, ys, ms, ds, rfl, hparts⟩

end Spelled

/-- A readable text is of a documented form if it has no sign and twice the same mark. -/
theorem documented_iff {s : String} {year : Int} {month day : Nat} :
    Documented s year month day ↔
      Readable s year month day ∧ s.toList.length = 10 ∧ s.toList[4]? = s.toList[7]? := by
  constructor
  · intro h
    refine ⟨h.readable, ?_⟩
    obtain ⟨mark, n, -, ⟨ys, ms, ds, heq, hyear, hmonth, hday⟩, -⟩ := h
    obtain ⟨y₁, y₂, y₃, y₄, rfl⟩ := hyear.exists_four
    obtain ⟨m₁, m₂, rfl⟩ := List.length_eq_two.mp hmonth.length
    obtain ⟨d₁, d₂, rfl⟩ := List.length_eq_two.mp hday.length
    rw [heq]
    exact ⟨rfl, rfl⟩
  · rintro ⟨⟨negative, sign, first, second, n, hsign, hfirst, -, ⟨ys, ms, ds, heq, hparts⟩, hvalue⟩,
      hlength, hmarks⟩
    obtain ⟨hyear, hmonth, hday⟩ := hparts
    obtain ⟨y₁, y₂, y₃, y₄, rfl⟩ := hyear.exists_four
    obtain ⟨m₁, m₂, rfl⟩ := List.length_eq_two.mp hmonth.length
    obtain ⟨d₁, d₂, rfl⟩ := List.length_eq_two.mp hday.length
    rw [heq] at hlength hmarks
    cases hsign with
    | plus => cases hlength
    | minus => cases hlength
    | absent =>
      obtain rfl : first = second := Option.some.inj hmarks
      exact ⟨first, n, hfirst, ⟨_, _, _, heq, hyear, hmonth, hday⟩, hvalue⟩

theorem read_eq_ok_iff {s : String} {d : Date} :
    Date.read s = .ok d ↔ Readable s d.year d.month d.day := by
  rw [← ofLiteral?_eq_some_iff, Date.read]
  cases ofLiteral? s <;> simp

theorem exists_read_iff {s : String} : (∃ d, Date.read s = .ok d) ↔
    ∃ year month day, Readable s year month day ∧ IsDate year month day := by
  constructor
  · rintro ⟨d, hd⟩
    exact ⟨d.year, d.month, d.day, read_eq_ok_iff.mp hd, d.isDate⟩
  · rintro ⟨year, month, day, hs, hdate⟩
    exact ⟨⟨year, month, day, hdate⟩, read_eq_ok_iff.mpr hs⟩

/-- A text is read as a date just where it writes a day of the calendar in a readable form, and the
message about any other text names it as it is written. Among the readable texts those of the two
documented forms are the ones of ten characters with twice the same mark. -/
theorem reads_dates (s : String) :
    (∀ d, Date.read s = .ok d ↔ Readable s d.year d.month d.day) ∧
      ((∃ d, Date.read s = .ok d) ↔
        ∃ year month day, Readable s year month day ∧ IsDate year month day) ∧
      (∀ e, Date.read s = .error e ↔ e = .invalidDate s ∧
        ¬∃ year month day, Readable s year month day ∧ IsDate year month day) ∧
      ∀ year month day, Documented s year month day ↔
        Readable s year month day ∧ s.toList.length = 10 ∧ s.toList[4]? = s.toList[7]? := by
  refine ⟨fun d ↦ read_eq_ok_iff, exists_read_iff, fun e ↦ ?_, fun year month day ↦ documented_iff⟩
  rw [← exists_read_iff, Date.read]
  cases ofLiteral? s <;> simp [eq_comm]

/-- The marks of a date that is read need not be the same. -/
theorem not_read_iff_documented : ¬∀ s, (∃ d, Date.read s = .ok d) ↔
    ∃ year month day, Documented s year month day ∧ IsDate year month day := by
  intro h
  have hread : Date.read "2024/01-02" = .ok ⟨2024, 1, 2, by decide⟩ := by decide +kernel
  obtain ⟨year, month, day, hdocumented, -⟩ := (h "2024/01-02").mp ⟨_, hread⟩
  obtain ⟨-, -, hmarks⟩ := documented_iff.mp hdocumented
  exact absurd hmarks (by decide +kernel)

/-! ## Dates of a scanner -/

theorem exists_documented {cs : List Char} (h : Lexeme.beginsWithDate cs = true) :
    ∃ year month day, Documented (String.ofList (cs.take 10)) year month day := by
  unfold Lexeme.beginsWithDate at h
  split at h
  · rename_i y₁ y₂ y₃ y₄ s m₁ m₂ s₂ d₁ d₂ rest
    simp only [List.all_cons, List.all_nil, Bool.and_true, Bool.and_eq_true, Bool.or_eq_true,
      beq_iff_eq] at h
    obtain ⟨⟨⟨hdigits, hmark⟩, rfl⟩, -⟩ := h
    refine ⟨ofDigits [y₁, y₂, y₃, y₄], ofDigits [m₁, m₂], ofDigits [d₁, d₂], s₂, _, hmark,
      ⟨[y₁, y₂, y₃, y₄], [m₁, m₂], [d₁, d₂], String.toList_ofList, ?_, ?_, ?_⟩, rfl⟩ <;>
    exact ⟨rfl, by simp [hdigits], rfl⟩
  · cases h

/-- A lexeme is a date only where the line goes on with one. -/
theorem begins_of_kind_read {c : Char} {rest : List Char} (h : (Lexeme.read c rest).kind = .date) :
    Lexeme.beginsWithDate (c :: rest) = true ∧
      (Lexeme.read c rest).payload = .text (String.ofList ((c :: rest).take 10)) := by
  have hplain : ¬Lexeme.Plain .date := by decide
  unfold Lexeme.read at h ⊢
  split_ifs at h ⊢
  · cases h
  · unfold Lexeme.ofQuoted at h
    split at h <;> cases h
  · unfold Lexeme.ofDigits at h ⊢
    split_ifs at h ⊢ with hdate
    · exact ⟨hdate, rfl⟩
    · cases h
  · unfold Lexeme.ofName at h
    dsimp only at h
    split_ifs at h <;> cases h
  · unfold Lexeme.ofWord at h
    dsimp only at h
    split at h
    · cases h
    · split at h
      · rename_i kind hfind
        exact (hplain (h ▸ Lexeme.plain_of_mem_keywords _ (List.mem_of_find?_eq_some hfind))).elim
      · cases h
  · unfold Lexeme.ofHash at h
    dsimp only at h
    split at h <;> cases h
  · cases h
  · unfold Lexeme.ofMark at h
    split at h
    · rename_i hdouble _
      exact (hplain (h ▸ Lexeme.plain_of_double? hdouble)).elim
    · split at h
      · rename_i hsingle
        exact (hplain (h ▸ Lexeme.plain_of_single? hsingle)).elim
      · split at h <;> cases h

/-- What a scanner takes for a date is of one of the two documented forms. -/
theorem documented_of_mem_scan {text : String} {t : Token} (ht : t ∈ Token.scan text)
    (hkind : t.kind = .date) :
    ∃ s, t.payload = .text s ∧ ∃ year month day, Documented s year month day := by
  obtain ⟨n, hn, ht⟩ := Token.exists_of_mem_scan ht
  have hlexeme : ∀ {line column : Nat} {body : List Char},
      t ∈ Token.scanLexemes line column 0 body →
        ∃ s, t.payload = .text s ∧ ∃ year month day, Documented s year month day := by
    intro line column body ht
    obtain ⟨c, rest, -, -, hread, hpayload⟩ := Token.exists_read_of_mem_scanLexemes ht
    obtain ⟨hbegins, htext⟩ := begins_of_kind_read (hread.trans hkind)
    exact ⟨_, hpayload.symm.trans htext, exists_documented hbegins⟩
  unfold Token.scanLine at ht
  dsimp only at ht
  split_ifs at ht <;>
    simp only [List.mem_append, List.mem_cons, List.not_mem_nil, or_false] at ht
  · subst ht
    cases hkind
  · rcases ht with (rfl | ht) | rfl
    · cases hkind
    · exact hlexeme ht
    · cases hkind
  · subst ht
    cases hkind
  · rcases ht with ht | rfl
    · exact hlexeme ht
    · cases hkind

end Date

end PlainLedger
