import PlainLedger.Proofs.Token.Contract

/-!
# Spans of tokens

The tokens of a line stand one after the other, with nothing but gaps between them, and each
character of the line that is no gap belongs to one of them. So the tokens of a text stand in the
order of the text.
-/

namespace PlainLedger

namespace Span

/-- The first span ends before the second one begins. -/
def Before (a b : Span) : Prop :=
  a.lastLine < b.firstLine ∨ a.lastLine = b.firstLine ∧ a.lastColumn < b.firstColumn

/-- The span is within one line, and takes up one column of it at least. -/
def OnLine (s : Span) (line : Nat) : Prop :=
  s.firstLine = line ∧ s.lastLine = line ∧ s.firstColumn ≤ s.lastColumn

/-- The span takes up the column of its line. -/
def Holds (s : Span) (column : Nat) : Prop := s.firstColumn ≤ column ∧ column ≤ s.lastColumn

instance (s : Span) (column : Nat) : Decidable (s.Holds column) :=
  inferInstanceAs (Decidable (_ ∧ _))

/-- All numbers of the span are numbers of 32 bits. -/
def Fits (s : Span) : Prop :=
  s.firstLine < UInt32.size ∧ s.firstColumn < UInt32.size ∧ s.lastLine < UInt32.size ∧
    s.lastColumn < UInt32.size

end Span

/-! ## Widths of lexemes -/

namespace Lexeme

/-- The lexeme takes up the first character, and no more than there is. -/
def Sized (x : Lexeme) (rest : List Char) : Prop := 0 < x.width ∧ x.width ≤ rest.length + 1

variable {c : Char} {rest : List Char}

theorem length_digits_le (cs : List Char) : (digits cs).length ≤ cs.length := by
  induction cs with
  | nil => exact Nat.le_refl 0
  | cons c rest ih =>
    unfold digits
    split
    · exact Nat.succ_le_succ ih
    · exact Nat.zero_le _

theorem quoted_le (cs : List Char) : (quoted cs).2.1 ≤ cs.length := by
  fun_induction quoted cs with
  | case1 => exact Nat.le_refl 0
  | case2 => exact Nat.le_refl 1
  | case3 c rest text width closed hrest ih =>
    rw [hrest] at ih
    simp only [List.length_cons] at ih ⊢
    omega
  | case4 rest => simp
  | case5 c rest _ _ hc text width closed hrest ih =>
    rw [hrest] at ih
    simp only [List.length_cons] at ih ⊢
    omega

theorem sized_ofQuoted (rest : List Char) : (ofQuoted rest).Sized rest := by
  have hle := quoted_le rest
  unfold ofQuoted
  split <;> rename_i hquoted <;> rw [hquoted] at hle
  · exact ⟨Nat.succ_pos _, Nat.succ_le_succ hle⟩
  · exact ⟨Nat.succ_pos _, Nat.succ_le_succ hle⟩

theorem length_of_beginsWithDate {cs : List Char} (h : beginsWithDate cs = true) :
    10 ≤ cs.length := by
  unfold beginsWithDate at h
  split at h
  · simp
  · cases h

theorem sized_ofDigits (hc : c.isDigit = true) : (ofDigits (c :: rest)).Sized rest := by
  unfold ofDigits
  split
  · rename_i hdate
    exact ⟨by simp [ofText], length_of_beginsWithDate hdate⟩
  · have hle := length_digits_le rest
    simp [Sized, ofText, digits, hc, hle]

/-- A word takes up its first character and others that follow. -/
theorem length_takeWhile_pos (rest : List Char) {p : Char → Bool} (hc : p c = true) :
    0 < ((c :: rest).takeWhile p).length ∧ ((c :: rest).takeWhile p).length ≤ rest.length + 1 :=
  ⟨by simp [hc], (List.takeWhile_prefix p).length_le⟩

theorem isAlpha_of_isUpper (hc : c.isUpper = true) : c.isAlpha = true :=
  (Bool.or_eq_true _ _).mpr (Or.inl hc)

theorem isAlpha_of_isLower (hc : c.isLower = true) : c.isAlpha = true :=
  (Bool.or_eq_true _ _).mpr (Or.inr hc)

theorem sized_ofName (hc : c.isUpper = true) : (ofName (c :: rest)).Sized rest := by
  have hword := length_takeWhile_pos rest
    (show isNameChar c = true by simp [isNameChar, Char.isAlphanum, isAlpha_of_isUpper hc])
  unfold ofName
  dsimp only
  split_ifs <;> exact hword

theorem sized_ofWord (hc : c.isLower = true) : (ofWord (c :: rest)).Sized rest := by
  have hword := length_takeWhile_pos rest
    (show isWordChar c = true by simp [isWordChar, Char.isAlphanum, isAlpha_of_isLower hc])
  unfold ofWord
  dsimp only
  split
  · rename_i hcolon
    exact ⟨Nat.succ_pos _, (List.getElem?_eq_some_iff.mp hcolon).1⟩
  · split <;> exact hword

theorem sized_ofHash (rest : List Char) : (ofHash rest).Sized rest := by
  unfold ofHash
  dsimp only
  split
  · exact ⟨Nat.one_pos, Nat.le_add_left 1 _⟩
  · exact ⟨Nat.succ_pos _, Nat.succ_le_succ (List.takeWhile_prefix _).length_le⟩

theorem sized_ofCaret (rest : List Char) : (ofCaret rest).Sized rest :=
  ⟨Nat.succ_pos _, Nat.succ_le_succ (List.takeWhile_prefix _).length_le⟩

theorem sized_ofMark (c : Char) (rest : List Char) : (ofMark c rest).Sized rest := by
  have hone : ∀ {x : Lexeme}, x.width = 1 → x.Sized rest := fun h ↦ by
    unfold Sized
    omega
  unfold ofMark
  split
  · rename_i hnext
    cases rest with
    | nil => cases hnext
    | cons d rest => exact ⟨Nat.two_pos, Nat.succ_le_succ (Nat.succ_pos _)⟩
  · split
    · exact hone rfl
    · split <;> exact hone rfl

theorem sized_read (c : Char) (rest : List Char) : (read c rest).Sized rest := by
  unfold read
  split_ifs with hcomment hquote hdigit hupper hlower
  · exact ⟨Nat.succ_pos _, Nat.le_refl _⟩
  · exact sized_ofQuoted rest
  · exact sized_ofDigits hdigit
  · exact sized_ofName hupper
  · exact sized_ofWord hlower
  · exact sized_ofHash rest
  · exact sized_ofCaret rest
  · exact sized_ofMark c rest

end Lexeme

namespace Token

/-! ## Tokens one after the other -/

/-- The characters from the column on, counted from zero, are those of the tokens, one token after
the other, and gaps. -/
inductive Tiles (line : Nat) : Nat → List Char → List Token → Prop where
  | done {column : Nat} : Tiles line column [] []
  | gap {column : Nat} {c : Char} {cs : List Char} {ts : List Token}
      (hc : Lexeme.isGap c = true) (h : Tiles line (column + 1) cs ts) :
      Tiles line column (c :: cs) ts
  | token {column : Nat} {own cs : List Char} {t : Token} {ts : List Token} (hne : own ≠ [])
      (hspan : t.span = ⟨line, column + 1, line, column + own.length⟩)
      (h : Tiles line (column + own.length) cs ts) : Tiles line column (own ++ cs) (t :: ts)

namespace Tiles

variable {line column : Nat} {cs cs' : List Char} {ts ts' : List Token}

theorem gaps (h : ∀ c ∈ cs, Lexeme.isGap c = true) : Tiles line column cs [] := by
  induction cs generalizing column with
  | nil => exact .done
  | cons c cs ih => exact .gap (h c (List.mem_cons_self ..)) (ih (List.forall_mem_cons.mp h).2)

theorem append (h : Tiles line column cs ts) (h' : Tiles line (column + cs.length) cs' ts') :
    Tiles line column (cs ++ cs') (ts ++ ts') := by
  induction h with
  | done => exact h'
  | gap hc _ ih =>
    refine .gap hc (ih ?_)
    rwa [Nat.add_assoc, Nat.add_comm 1]
  | @token column own cs t ts hne hspan _ ih =>
    rw [List.append_assoc]
    refine .token hne hspan (ih ?_)
    rwa [Nat.add_assoc, ← List.length_append]

/-- The tokens are within the line, after the column, and not beyond the last character. -/
theorem span (h : Tiles line column cs ts) : ∀ t ∈ ts, t.span.OnLine line ∧
    column < t.span.firstColumn ∧ t.span.lastColumn ≤ column + cs.length := by
  induction h with
  | done => exact nofun
  | gap _ _ ih =>
    intro t ht
    obtain ⟨hline, hfirst, hlast⟩ := ih t ht
    exact ⟨hline, by omega, by rw [List.length_cons]; omega⟩
  | @token column own cs t ts hne hspan _ ih =>
    have hpos := List.length_pos_of_ne_nil hne
    intro u hu
    rw [List.length_append]
    rcases List.mem_cons.mp hu with rfl | hu
    · rw [hspan]
      exact ⟨⟨rfl, rfl, by dsimp only; omega⟩, Nat.lt_succ_self column, by dsimp only; omega⟩
    · obtain ⟨hline, hfirst, hlast⟩ := ih u hu
      exact ⟨hline, by omega, by omega⟩

theorem ordered (h : Tiles line column cs ts) :
    ts.Pairwise fun t u ↦ t.span.lastColumn < u.span.firstColumn := by
  induction h with
  | done => exact .nil
  | gap _ _ ih => exact ih
  | token hne hspan h ih =>
    refine .cons (fun u hu ↦ ?_) ih
    rw [hspan]
    exact (h.span u hu).2.1

/-- Each character that is no gap belongs to one token. -/
theorem covered (h : Tiles line column cs ts) {k : Nat} {c : Char} (hk : cs[k]? = some c)
    (hc : Lexeme.isGap c = false) :
    ts.countP (fun t ↦ t.span.Holds (column + k + 1)) = 1 := by
  induction h generalizing k with
  | done => cases hk
  | @gap column d cs ts hd _ ih =>
    cases k with
    | zero =>
      cases hk
      rw [hd] at hc
      cases hc
    | succ k =>
      rw [← Nat.add_assoc column, Nat.add_right_comm column]
      exact ih hk
  | @token column own cs t ts hne hspan h ih =>
    have ht : t.span.Holds (column + k + 1) ↔ k < own.length := by
      rw [hspan]
      unfold Span.Holds
      dsimp only
      omega
    by_cases hown : k < own.length
    · have hrest : ts.countP (fun t ↦ t.span.Holds (column + k + 1)) = 0 := by
        refine List.countP_eq_zero.mpr fun u hu hholds ↦ ?_
        have hfirst := (h.span u hu).2.1
        have hle := (of_decide_eq_true hholds).1
        omega
      rw [List.countP_cons_of_pos (by simpa using ht.mpr hown), hrest]
    · obtain ⟨j, rfl⟩ := Nat.exists_eq_add_of_le (Nat.not_lt.mp hown)
      rw [List.countP_cons_of_neg (by simpa using mt ht.mp hown), ← Nat.add_assoc]
      rw [List.getElem?_append_right (Nat.le_add_right _ _), Nat.add_sub_cancel_left] at hk
      exact ih hk

end Tiles

section Lines

variable {line column : Nat} {cs : List Char}

theorem scanLexemes_append (line column : Nat) (own cs : List Char) :
    scanLexemes line column own.length (own ++ cs) =
      scanLexemes line (column + own.length) 0 cs := by
  induction own generalizing column with
  | nil => rfl
  | cons c own ih =>
    rw [List.length_cons, Nat.add_comm own.length, ← Nat.add_assoc, ← ih]
    rw [Nat.add_comm 1]
    rfl

theorem tiles_scanLexemes (line column : Nat) (cs : List Char) :
    Tiles line column cs (scanLexemes line column 0 cs) := by
  induction hn : cs.length using Nat.strong_induction_on generalizing column cs with
  | _ n ih =>
    cases cs with
    | nil => exact .done
    | cons c rest =>
      rw [List.length_cons] at hn
      unfold scanLexemes
      split
      · rename_i hc
        exact .gap hc (ih _ (by omega) _ _ rfl)
      · obtain ⟨hpos, hle⟩ := Lexeme.sized_read c rest
        dsimp only
        generalize Lexeme.read c rest = x at hpos hle
        obtain ⟨k, hwidth⟩ := Nat.exists_eq_add_of_le' hpos
        have hlength : (c :: rest.take k).length = x.width := by
          rw [List.length_cons, List.length_take]
          omega
        have hrest : scanLexemes line (column + 1) (x.width - 1) rest =
            scanLexemes line (column + x.width) 0 (rest.drop k) := by
          have happend := scanLexemes_append line (column + 1) (rest.take k)
            (rest.drop k)
          rw [List.take_append_drop] at happend
          rw [List.length_cons] at hlength
          rw [← hlength, Nat.add_sub_cancel, happend, Nat.add_right_comm, Nat.add_assoc]
        rw [hrest, ← List.take_append_drop k rest, ← List.cons_append, List.take_append_drop]
        refine .token (List.cons_ne_nil _ _) ?_ ?_
        · rw [hlength]
          unfold columns
          rw [Nat.max_eq_left (by omega)]
        · rw [hlength]
          exact ih _ (by rw [List.length_drop]; omega) _ _ rfl

/-- The end of a line stands for a line feed after its last character. -/
theorem tiles_endOfLine (line : Nat) (cs : List Char) :
    Tiles line cs.length ['\n'] [endOfLine line cs.length] := by
  rw [← List.append_nil ['\n']]
  refine .token (List.cons_ne_nil _ _) ?_ .done
  unfold endOfLine columns bare
  rw [Nat.max_self]
  rfl

/-- A token for characters that begin a line. -/
theorem tiles_front (line : Nat) {own : List Char} (kind : Terminal) (hne : own ≠ []) :
    Tiles line 0 own [bare kind (columns line 0 own.length)] := by
  rw [← List.append_nil own]
  refine .token hne ?_ .done
  unfold columns bare
  rw [List.append_nil, Nat.max_eq_left (List.length_pos_of_ne_nil hne), Nat.zero_add, Nat.zero_add]

/-- The tokens of a line are those of its characters and of the line feed after them, if it is
neither a heading nor left out. -/
theorem exists_tiles_scanLine (line : Nat) (cs : List Char) :
    scanLine line cs = [] ∨
      ∃ ending, Tiles line 0 (cs ++ ending) (scanLine line cs) ∧ ending.length ≤ 1 := by
  have hending : ∀ {ts : List Token}, Tiles line 0 cs ts →
      ∃ ending, Tiles line 0 (cs ++ ending) (ts ++ [endOfLine line cs.length]) ∧
        ending.length ≤ 1 := fun h ↦
    ⟨['\n'], h.append (by rw [Nat.zero_add]; exact tiles_endOfLine line cs), Nat.le_refl 1⟩
  unfold scanLine
  dsimp only
  split_ifs with hblank hindent hcomment hheading
  · refine Or.inr (hending (.gaps ?_))
    simpa [List.isEmpty_iff, List.dropWhile_eq_nil_iff] using hblank
  · exact Or.inl rfl
  · refine Or.inr (hending ?_)
    have happend := (tiles_front line .indent (List.ne_nil_of_length_pos hindent)).append
      (tiles_scanLexemes line _ (cs.dropWhile Lexeme.isGap))
    rwa [List.takeWhile_append_dropWhile, Nat.zero_add] at happend
  · refine Or.inr ⟨[], ?_, Nat.zero_le 1⟩
    rw [List.append_nil]
    refine tiles_front line .skipped fun hnil ↦ ?_
    rw [hnil] at hheading
    cases hheading
  · exact Or.inr (hending (tiles_scanLexemes line 0 cs))

/-- The characters before the lexemes of an indented line. -/
theorem span_of_indent {t : Token} (ht : t ∈ scanLine line cs) (hkind : t.kind = .indent) :
    t.span = ⟨line, 1, line, (cs.takeWhile Lexeme.isGap).length⟩ := by
  have hlexeme : ∀ {column : Nat} {body : List Char}, t ∉ scanLexemes line column 0 body :=
    fun ht ↦ (of_mem_scanLexemes ht).2.1 (by rw [hkind]; decide)
  unfold scanLine at ht
  dsimp only at ht
  split_ifs at ht with hblank hindent <;>
    simp only [List.mem_append, List.mem_cons, List.not_mem_nil, or_false, hlexeme, false_or] at ht
  · rw [ht] at hkind
    cases hkind
  · rcases ht with rfl | rfl
    · unfold columns bare
      rw [Nat.max_eq_left hindent]
    · cases hkind
  · rw [ht] at hkind
    cases hkind
  · rw [ht] at hkind
    cases hkind

theorem span_of_eol {t : Token} (ht : t ∈ scanLine line cs) (hkind : t.kind = .eol) :
    t.span = ⟨line, cs.length + 1, line, cs.length + 1⟩ := by
  have hlexeme : ∀ {column : Nat} {body : List Char}, t ∉ scanLexemes line column 0 body :=
    fun ht ↦ (of_mem_scanLexemes ht).2.1 (by rw [hkind]; decide)
  have hend : t = endOfLine line cs.length := by
    unfold scanLine at ht
    dsimp only at ht
    split_ifs at ht <;>
      simp only [List.mem_append, List.mem_cons, List.not_mem_nil, or_false, hlexeme,
        false_or] at ht
    · exact ht
    · rcases ht with rfl | ht
      · cases hkind
      · exact ht
    · rw [ht] at hkind
      cases hkind
    · exact ht
  rw [hend]
  unfold endOfLine columns bare
  rw [Nat.max_self]

end Lines

/-- The tokens of a line that has tokens. -/
structure Tiled (cs : List Char) (ts : List Token) : Prop where
  ordered : ts.Pairwise fun t u ↦ t.span.lastColumn < u.span.firstColumn
  /-- Each character that is no gap belongs to one token. -/
  covered : ∀ k (hk : k < cs.length), Lexeme.isGap cs[k] = false →
    ts.countP (fun t ↦ t.span.Holds (k + 1)) = 1
  between : ∀ front t u back, ts = front ++ t :: u :: back → ∀ k (hk : k < cs.length),
    t.span.lastColumn < k + 1 → k + 1 < u.span.firstColumn → Lexeme.isGap cs[k] = true
  indent : ∀ t ∈ ts, t.kind = .indent →
    t.span.firstColumn = 1 ∧ t.span.lastColumn = (cs.takeWhile Lexeme.isGap).length
  eol : ∀ t ∈ ts, t.kind = .eol →
    t.span.firstColumn = cs.length + 1 ∧ t.span.lastColumn = cs.length + 1

/-- A character that no token has is a gap. -/
theorem tiled_scanLine {line : Nat} {cs : List Char} (h : scanLine line cs ≠ []) :
    Tiled cs (scanLine line cs) := by
  obtain ⟨ending, htiles, -⟩ := (exists_tiles_scanLine line cs).resolve_left h
  have hcovered : ∀ k (hk : k < cs.length), Lexeme.isGap cs[k] = false →
      (scanLine line cs).countP (fun t ↦ t.span.Holds (k + 1)) = 1 := by
    intro k hk hgap
    have hget : (cs ++ ending)[k]? = some cs[k] := by
      rw [List.getElem?_append_left hk, List.getElem?_eq_getElem hk]
    have hcount := htiles.covered hget hgap
    rwa [Nat.zero_add] at hcount
  refine ⟨htiles.ordered, hcovered, ?_, fun t ht hkind ↦ ?_, fun t ht hkind ↦ ?_⟩
  · intro front t u back heq k hk hafter hbefore
    by_contra hgap
    obtain ⟨w, hw, hholds⟩ := List.countP_pos_iff.mp
      (Nat.lt_of_lt_of_eq Nat.zero_lt_one (hcovered k hk (eq_false_of_ne_true hgap)).symm)
    obtain ⟨hfirst, hlast⟩ := of_decide_eq_true hholds
    have hordered := htiles.ordered
    rw [heq, List.pairwise_append, List.pairwise_cons, List.pairwise_cons] at hordered
    obtain ⟨-, ⟨-, hback, -⟩, hfront⟩ := hordered
    have hspan := fun v hv ↦ (htiles.span v hv).1.2.2
    rw [heq] at hw hspan
    rcases List.mem_append.mp hw with hw | hw
    · have hlt := hfront w hw t (List.mem_cons_self ..)
      have hle := hspan t (List.mem_append_right _ (List.mem_cons_self ..))
      omega
    · rcases List.mem_cons.mp hw with rfl | hw
      · omega
      · rcases List.mem_cons.mp hw with rfl | hw
        · omega
        · have hlt := hback w hw
          have hle :=
            hspan u (List.mem_append_right _ (List.mem_cons_of_mem _ (List.mem_cons_self ..)))
          omega
  · rw [span_of_indent ht hkind]
    exact ⟨rfl, rfl⟩
  · rw [span_of_eol ht hkind]
    exact ⟨rfl, rfl⟩

/-- A token of a line is within the line, and at most one column beyond its characters. -/
theorem onLine_of_mem_scanLine {line : Nat} {cs : List Char} {t : Token}
    (ht : t ∈ scanLine line cs) :
    t.span.OnLine line ∧ 1 ≤ t.span.firstColumn ∧ t.span.lastColumn ≤ cs.length + 1 := by
  obtain ⟨ending, htiles, hending⟩ :=
    (exists_tiles_scanLine line cs).resolve_left (List.ne_nil_of_mem ht)
  obtain ⟨honLine, hfirst, hlast⟩ := htiles.span t ht
  rw [List.length_append] at hlast
  exact ⟨honLine, hfirst, by omega⟩

/-! ## Texts -/

/-- The tokens of a text stand in its lines, one after the other. -/
structure Tiling (text : String) (ts : List Token) : Prop where
  within : ∀ t ∈ ts, ∃ n < (pieces text).length, t.span.OnLine (n + 1)
  /-- The tokens on a line are those that its characters are read as. -/
  source : ∀ n (h : n < (pieces text).length), onLine (n + 1) ts =
    if (pieces text)[n] = [] ∧ n + 1 = (pieces text).length then []
    else scanLine (n + 1) (pieces text)[n]
  lines : ∀ n (h : n < (pieces text).length), onLine (n + 1) ts ≠ [] →
    Tiled ((pieces text)[n]) (onLine (n + 1) ts)
  ordered : ts.Pairwise fun t u ↦ t.span.Before u.span
  fits : ∀ t ∈ ts, t.span.Fits

theorem onLine_scan {text : String} {n : Nat} (hn : n < (pieces text).length) :
    onLine (n + 1) (scan text) = if (pieces text)[n] = [] ∧ n + 1 = (pieces text).length then []
      else scanLine (n + 1) (pieces text)[n] := by
  rw [scan, Nat.add_comm n 1, onLine_flatMap_scanLine, getElem?_sourceLines hn, Nat.add_comm 1 n]
  split_ifs <;> rfl

theorem mem_onLine {line : Nat} {t : Token} {ts : List Token} :
    t ∈ onLine line ts ↔ t ∈ ts ∧ t.span.firstLine = line := by
  rw [onLine, List.mem_filter, beq_iff_eq]

/-- A token of a text is one of those of its line. -/
theorem exists_of_mem_scan {text : String} {t : Token} (ht : t ∈ scan text) :
    ∃ n, ∃ h : n < (pieces text).length, t ∈ scanLine (n + 1) (pieces text)[n] := by
  obtain ⟨n, hn, hline⟩ := firstLine_of_mem_scan ht
  have hmem := mem_onLine.mpr ⟨ht, hline⟩
  rw [onLine_scan hn] at hmem
  split_ifs at hmem with hlast
  · cases hmem
  · exact ⟨n, hn, hmem⟩

section Numbered

variable {xs : List (List Char)} {first : Nat}

theorem ordered_flatMap_scanLine :
    ((xs.zipIdx first).flatMap fun x ↦ scanLine x.2 x.1).Pairwise fun t u ↦
      t.span.Before u.span := by
  induction xs generalizing first with
  | nil => exact .nil
  | cons cs xs ih =>
    rw [List.zipIdx_cons, List.flatMap_cons, List.pairwise_append]
    refine ⟨?_, ih, fun t ht u hu ↦ Or.inl ?_⟩
    · by_cases hnil : scanLine first cs = []
      · rw [hnil]
        exact .nil
      · refine (tiled_scanLine hnil).ordered.imp_of_mem fun ht hu hlt ↦ Or.inr ⟨?_, hlt⟩
        exact (onLine_of_mem_scanLine ht).1.2.1.trans (onLine_of_mem_scanLine hu).1.1.symm
    · obtain ⟨⟨n, -, hn⟩, -⟩ := of_mem_flatMap_scanLine hu
      have hlast := (onLine_of_mem_scanLine ht).1.2.1
      omega

end Numbered

theorem length_piece_le {text : String} {n : Nat} (hn : n < (pieces text).length) :
    ∃ cs ∈ text.toList.splitOn '\n', (pieces text)[n].length ≤ cs.length := by
  have hlength : n < (text.toList.splitOn '\n').length := by
    rwa [pieces, List.length_map] at hn
  refine ⟨_, List.getElem_mem hlength, ?_⟩
  simp only [pieces, List.getElem_map]
  exact (List.rdropWhile_prefix _ _).length_le

/-- The spans of a text's tokens tile its lines. -/
theorem tiling_scan (text : String) (hlines : (text.toList.splitOn '\n').length < UInt32.size - 1)
    (hcolumns : ∀ cs ∈ text.toList.splitOn '\n', cs.length < UInt32.size - 1) :
    Tiling text (scan text) where
  within t ht := by
    obtain ⟨n, hn, hmem⟩ := exists_of_mem_scan ht
    exact ⟨n, hn, (onLine_of_mem_scanLine hmem).1⟩
  source _ hn := onLine_scan hn
  lines n hn hne := by
    rw [onLine_scan hn] at hne ⊢
    split_ifs at hne ⊢ with hlast
    · exact (hne rfl).elim
    · exact tiled_scanLine hne
  ordered := ordered_flatMap_scanLine
  fits t ht := by
    obtain ⟨n, hn, hmem⟩ := exists_of_mem_scan ht
    obtain ⟨⟨hfirst, hlast, hle⟩, -, hcolumn⟩ := onLine_of_mem_scanLine hmem
    obtain ⟨cs, hcs, hlength⟩ := length_piece_le hn
    have hcs := hcolumns cs hcs
    rw [pieces, List.length_map] at hn
    unfold Span.Fits
    omega

/-- A head line that ends with a carriage return, and a posting with a lot. -/
def returnedPosting : String :=
  "2024-01-02 * \"a\\\"b\" #t\r\n\tA:B  1,000 USD \x7b\x7b2 # 3 EUR\x7d\x7d; c\n"

theorem tiling_scan_returnedPosting :
    ((returnedPosting.toList.splitOn '\n').length < UInt32.size - 1 ∧
        ∀ cs ∈ returnedPosting.toList.splitOn '\n', cs.length < UInt32.size - 1) ∧
      Tiling returnedPosting (scan returnedPosting) :=
  ⟨⟨by decide +kernel, by decide +kernel⟩,
    tiling_scan returnedPosting (by decide +kernel) (by decide +kernel)⟩

end Token

end PlainLedger
