import Mathlib.Data.List.DropRight
import PlainLedger.Proofs.Language.Form
import PlainLedger.Token.Scan

/-!
# What a scanner promises

Whatever the text, its tokens are of the kinds that a scanner has for lexemes and lines, each token
carries what its kind asks for, and each line has one of a few shapes: it has no tokens, it is
skipped or blank, or it holds lexemes, behind a token for the indentation if it is indented and
before the token that ends it.
-/

namespace PlainLedger

/-- What tokens of a kind carry. -/
inductive Load where
  | nothing
  | char
  | text
  deriving DecidableEq, Repr

def Payload.load : Payload → Load
  | none => .nothing
  | char _ => .char
  | text _ => .text

def Terminal.load : Terminal → Load
  | flag => .char
  | string | account | currency | number | date | bool | tag | link | key | comment | lexError =>
    .text
  | _ => .nothing

/-- The token carries what its kind asks for, and nothing else. -/
def Token.Exact (t : Token) : Prop := t.payload.load = t.kind.load

theorem Token.Exact.sound {t : Token} (h : t.Exact) : t.Sound := by
  obtain ⟨kind, payload, span⟩ := t
  unfold Exact at h
  cases kind <;> cases payload <;> first
    | exact trivial
    | exact ⟨_, rfl⟩
    | cases h

/-! ## Lexemes -/

namespace Lexeme

/-- The kinds that no lexeme has: those that no token of a scanner has, and those that a line has
for itself. -/
def marginal : List Terminal := [.endOfInput, .error, .negative, .indent, .eol, .skipped]

/-- A lexeme before the rest of its line. -/
structure Lawful (x : Lexeme) (rest : List Char) : Prop where
  inner : x.kind ∉ marginal
  exact : x.payload.load = x.kind.load
  /-- A comment takes up the rest of the line. -/
  last : x.kind = .comment → x.width = rest.length + 1

/-- Marks and keywords have such kinds. -/
def Plain (t : Terminal) : Prop := t ∉ marginal ∧ t.load = .nothing ∧ t ≠ .comment

instance (t : Terminal) : Decidable (Plain t) :=
  inferInstanceAs (Decidable (t ∉ marginal ∧ t.load = .nothing ∧ t ≠ .comment))

variable {rest : List Char}

theorem lawful_ofText {kind : Terminal}
    (hkind : kind ∉ marginal ∧ kind.load = .text ∧ kind ≠ .comment)
    (text : List Char) (width : Nat) : (ofText kind text width).Lawful rest :=
  ⟨hkind.1, hkind.2.1.symm, fun h ↦ (hkind.2.2 h).elim⟩

theorem lawful_plain {kind : Terminal} (hkind : Plain kind) (width : Nat) :
    Lawful ⟨kind, .none, width⟩ rest :=
  ⟨hkind.1, hkind.2.1.symm, fun h ↦ (hkind.2.2 h).elim⟩

theorem lawful_invalid (text : List Char) : (invalid text).Lawful rest :=
  ⟨by simp [invalid, marginal], rfl, nofun⟩

theorem lawful_ofQuoted (cs : List Char) : (ofQuoted cs).Lawful rest := by
  unfold ofQuoted
  split
  · exact lawful_ofText (by decide) _ _
  · exact ⟨by simp [marginal], rfl, nofun⟩

theorem lawful_ofDigits (cs : List Char) : (ofDigits cs).Lawful rest := by
  unfold ofDigits
  split <;> exact lawful_ofText (by decide) _ _

theorem lawful_ofName (cs : List Char) : (ofName cs).Lawful rest := by
  unfold ofName
  dsimp only
  split_ifs
  · exact lawful_ofText (by decide) _ _
  · exact lawful_ofText (by decide) _ _
  · exact lawful_ofText (by decide) _ _
  · exact lawful_invalid _

theorem plain_of_mem_keywords : ∀ k ∈ keywords, Plain k.2 := by decide

theorem lawful_ofWord (cs : List Char) : (ofWord cs).Lawful rest := by
  unfold ofWord
  dsimp only
  split
  · exact lawful_ofText (by decide) _ _
  · split
    · rename_i kind hfind
      exact lawful_plain (plain_of_mem_keywords _ (List.mem_of_find?_eq_some hfind)) _
    · exact lawful_invalid _

theorem lawful_ofHash (cs : List Char) : (ofHash cs).Lawful rest := by
  unfold ofHash
  dsimp only
  split
  · exact lawful_plain (by decide) _
  · exact lawful_ofText (by decide) _ _

theorem lawful_ofCaret (cs : List Char) : (ofCaret cs).Lawful rest :=
  lawful_ofText (by decide) _ _

theorem plain_of_double? {c : Char} {kind : Terminal} (h : double? c = some kind) : Plain kind := by
  unfold double? at h
  split at h <;> cases h <;> decide

theorem plain_of_single? {c : Char} {kind : Terminal} (h : single? c = some kind) : Plain kind := by
  unfold single? at h
  split at h <;> cases h <;> decide

theorem lawful_ofMark (c : Char) (cs : List Char) : (ofMark c cs).Lawful rest := by
  unfold ofMark
  split
  · rename_i hdouble _
    exact lawful_plain (plain_of_double? hdouble) _
  · split
    · rename_i hsingle
      exact lawful_plain (plain_of_single? hsingle) _
    · split
      · exact ⟨by simp [marginal], rfl, nofun⟩
      · exact lawful_invalid _

theorem lawful_read (c : Char) (rest : List Char) : (read c rest).Lawful rest := by
  unfold read
  split_ifs
  · exact ⟨by simp [ofText, marginal], rfl, fun _ ↦ rfl⟩
  · exact lawful_ofQuoted _
  · exact lawful_ofDigits _
  · exact lawful_ofName _
  · exact lawful_ofWord _
  · exact lawful_ofHash _
  · exact lawful_ofCaret _
  · exact lawful_ofMark _ _

end Lexeme

/-! ## Lines -/

namespace Token

section Lexemes

variable {line column skip : Nat} {cs : List Char}

theorem of_mem_scanLexemes {t : Token} (ht : t ∈ scanLexemes line column skip cs) :
    t.span.firstLine = line ∧ t.kind ∉ Lexeme.marginal ∧ t.Exact := by
  induction cs generalizing column skip with
  | nil => cases ht
  | cons c rest ih =>
    cases skip with
    | succ skip => exact ih ht
    | zero =>
      unfold scanLexemes at ht
      split at ht
      · exact ih ht
      · have hlawful := Lexeme.lawful_read c rest
        rcases List.mem_cons.mp ht with rfl | ht
        · exact ⟨rfl, hlawful.inner, hlawful.exact⟩
        · exact ih ht

theorem scanLexemes_eq_nil (h : cs.length ≤ skip) : scanLexemes line column skip cs = [] := by
  induction cs generalizing column skip with
  | nil => rfl
  | cons c rest ih =>
    cases skip with
    | zero => cases h
    | succ skip => exact ih (Nat.le_of_succ_le_succ h)

/-- Nothing comes after a comment. -/
theorem kind_ne_comment_of_mem_dropLast {t : Token}
    (ht : t ∈ (scanLexemes line column skip cs).dropLast) : t.kind ≠ .comment := by
  induction cs generalizing column skip with
  | nil => cases ht
  | cons c rest ih =>
    cases skip with
    | succ skip => exact ih ht
    | zero =>
      unfold scanLexemes at ht
      split at ht
      · exact ih ht
      · have hlast := (Lexeme.lawful_read c rest).last
        dsimp only at ht
        by_cases htail : scanLexemes line (column + 1) ((Lexeme.read c rest).width - 1) rest = []
        · rw [htail] at ht
          cases ht
        · rw [List.dropLast_cons_of_ne_nil htail] at ht
          rcases List.mem_cons.mp ht with rfl | ht
          · intro hkind
            have hwidth := hlast hkind
            exact htail (scanLexemes_eq_nil (by omega))
          · exact ih ht

theorem scanLexemes_ne_nil {c : Char} {rest : List Char} (hc : Lexeme.isGap c = false) :
    scanLexemes line column 0 (c :: rest) ≠ [] := by
  unfold scanLexemes
  simp [hc]

end Lexemes

def Indented (cs : List Char) : Prop := cs.head?.any Lexeme.isGap = true

instance (cs : List Char) : Decidable (Indented cs) := inferInstanceAs (Decidable (_ = true))

/-- The line is indented and holds nothing but a comment. -/
def Commented (cs : List Char) : Prop :=
  Indented cs ∧ (cs.dropWhile Lexeme.isGap).head? = some ';'

/-- The tokens of one line. The `final` piece of a text is no line if nothing is in it. -/
inductive OfLine (cs : List Char) (final : Prop) : List Token → Prop where
  | absent (h : cs = [] ∧ final) : OfLine cs final []
  | commented (h : Commented cs) : OfLine cs final []
  | heading {t : Token} (hindent : ¬Indented cs) (h : isHeading cs = true)
      (ht : t.kind = .skipped) : OfLine cs final [t]
  | blank {t : Token} (hline : ¬(cs = [] ∧ final)) (h : ∀ c ∈ cs, Lexeme.isGap c = true)
      (ht : t.kind = .eol) : OfLine cs final [t]
  | filled {front body : List Token} {t : Token} (h : ∃ c ∈ cs, Lexeme.isGap c = false)
      (hcommented : ¬Commented cs) (hheading : isHeading cs = false)
      (hfront : front.map Token.kind = if Indented cs then [.indent] else [])
      (hbody : body ≠ []) (hinner : ∀ x ∈ body, x.kind ∉ [.indent, .eol, .skipped])
      (hcomment : ∀ x ∈ body.dropLast, x.kind ≠ .comment) (ht : t.kind = .eol) :
      OfLine cs final (front ++ body ++ [t])

section Lines

variable {line : Nat} {cs : List Char}

theorem of_mem_scanLine {t : Token} (ht : t ∈ scanLine line cs) :
    t.span.firstLine = line ∧ t.kind ∉ [.endOfInput, .error, .negative] ∧ t.Exact := by
  have hlexeme : ∀ {column : Nat} {body : List Char}, t ∈ scanLexemes line column 0 body →
      t.span.firstLine = line ∧ t.kind ∉ [.endOfInput, .error, .negative] ∧ t.Exact := by
    intro column body ht
    obtain ⟨hline, hkind, hexact⟩ := of_mem_scanLexemes ht
    refine ⟨hline, fun h ↦ hkind ?_, hexact⟩
    simp only [Lexeme.marginal, List.mem_cons, List.not_mem_nil, or_false] at h ⊢
    tauto
  unfold scanLine at ht
  dsimp only at ht
  split_ifs at ht <;>
    simp only [List.mem_append, List.mem_cons, List.not_mem_nil, or_false] at ht
  · subst ht
    exact ⟨rfl, by simp [endOfLine, bare], rfl⟩
  · rcases ht with (rfl | ht) | rfl
    · exact ⟨rfl, by simp [bare], rfl⟩
    · exact hlexeme ht
    · exact ⟨rfl, by simp [endOfLine, bare], rfl⟩
  · subst ht
    exact ⟨rfl, by simp [bare], rfl⟩
  · rcases ht with ht | rfl
    · exact hlexeme ht
    · exact ⟨rfl, by simp [endOfLine, bare], rfl⟩

theorem indented_iff : Indented cs ↔ 0 < (cs.takeWhile Lexeme.isGap).length := by
  cases cs with
  | nil => simp [Indented]
  | cons c rest => by_cases hc : Lexeme.isGap c <;> simp [Indented, hc]

theorem dropWhile_of_not_indented (h : ¬Indented cs) : cs.dropWhile Lexeme.isGap = cs := by
  cases cs with
  | nil => rfl
  | cons c rest =>
    have hc : Lexeme.isGap c = false := by simpa [Indented] using h
    rw [List.dropWhile_cons, hc]
    rfl

/-- Headings are not indented: they begin with a mark. -/
theorem isHeading_of_indented (h : Indented cs) : isHeading cs = false := by
  match cs with
  | [] | [_] => rfl
  | c :: d :: _ =>
    have hgap : c = ' ' ∨ c = '\t' := by simpa [Indented, Lexeme.isGap] using h
    rcases hgap with rfl | rfl <;> rfl

theorem filled_scanLexemes (front : List Token) {column : Nat} {body : List Char} {final : Prop}
    (hcommented : ¬Commented cs) (hheading : isHeading cs = false)
    (hfront : front.map Token.kind = if Indented cs then [.indent] else [])
    (hbody : cs.dropWhile Lexeme.isGap = body) (hne : body ≠ []) (length : Nat) :
    OfLine cs final (front ++ scanLexemes line column 0 body ++ [endOfLine line length]) := by
  obtain ⟨c, rest, rfl⟩ := List.exists_cons_of_ne_nil hne
  have hc : Lexeme.isGap c = false := by
    have hhead := List.head?_dropWhile_not Lexeme.isGap cs
    simpa [hbody] using hhead
  have hmem : c ∈ cs := (List.dropWhile_sublist _).subset (hbody ▸ List.mem_cons_self ..)
  refine .filled ⟨c, hmem, hc⟩ hcommented hheading hfront (scanLexemes_ne_nil hc) ?_
    (fun x ↦ kind_ne_comment_of_mem_dropLast) rfl
  intro x hx hkind
  refine (of_mem_scanLexemes hx).2.1 ?_
  simp only [Lexeme.marginal, List.mem_cons, List.not_mem_nil, or_false] at hkind ⊢
  tauto

/-- A piece of a text that is a line has the tokens of one. -/
theorem ofLine_scanLine {final : Prop} (hline : ¬(cs = [] ∧ final)) :
    OfLine cs final (scanLine line cs) := by
  unfold scanLine
  dsimp only
  split_ifs with hblank hindent hcomment hheading
  · refine .blank hline ?_ rfl
    simpa [List.isEmpty_iff, List.dropWhile_eq_nil_iff] using hblank
  · exact .commented ⟨indented_iff.mpr hindent, hcomment⟩
  · have hin : Indented cs := indented_iff.mpr hindent
    refine filled_scanLexemes [bare .indent _] (fun h ↦ hcomment h.2)
      (isHeading_of_indented hin) ?_ rfl ?_ _
    · simp [hin, bare]
    · simpa [List.isEmpty_iff] using hblank
  · exact .heading (fun h ↦ hindent (indented_iff.mp h)) hheading rfl
  · have hnot : ¬Indented cs := fun h ↦ hindent (indented_iff.mp h)
    have hbody := dropWhile_of_not_indented hnot
    refine filled_scanLexemes [] (fun h ↦ hnot h.1) (by simpa using hheading) ?_ hbody
      ?_ _
    · simp [hnot]
    · simpa [hbody] using hblank

end Lines

/-! ## Texts -/

/-- The pieces of the text between its line feeds, without the carriage returns at their ends. -/
def pieces (text : String) : List (List Char) :=
  (text.toList.splitOn '\n').map (List.rdropWhile (· == '\r'))

/-- The tokens that stand on the line. -/
def onLine (line : Nat) (ts : List Token) : List Token := ts.filter (·.span.firstLine == line)

/-- What a grammar may count on. -/
structure Contract (text : String) (ts : List Token) : Prop where
  own : ∀ t ∈ ts, t.kind ∉ [.endOfInput, .error, .negative]
  exact : ∀ t ∈ ts, t.Exact
  ordered : (ts.map (·.span.firstLine)).Pairwise (· ≤ ·)
  within : ∀ t ∈ ts, ∃ n < (pieces text).length, t.span.firstLine = n + 1
  lines : ∀ n (h : n < (pieces text).length),
    OfLine ((pieces text)[n]) (n + 1 = (pieces text).length) (onLine (n + 1) ts)

theorem lines_eq_splitOn (cs : List Char) : lines cs = cs.splitOn '\n' := by
  induction cs with
  | nil => rfl
  | cons c rest ih =>
    unfold List.splitOn at ih ⊢
    rw [lines, List.splitOnP_cons_eq_if_modifyHead, ih]
    by_cases hc : c = '\n'
    · simp [hc]
    · rw [if_neg hc, if_neg (by simpa using hc)]
      obtain ⟨line, others, hsplit⟩ :=
        List.exists_cons_of_ne_nil (List.splitOnP_ne_nil (· == '\n') rest)
      rw [hsplit]
      rfl

theorem map_stripReturns_lines (text : String) :
    (lines text.toList).map stripReturns = pieces text := by
  rw [lines_eq_splitOn]
  rfl

theorem sourceLines_eq (text : String) : sourceLines text.toList =
    if (pieces text).getLast? = some [] then (pieces text).dropLast else pieces text := by
  rw [sourceLines, map_stripReturns_lines]

theorem length_sourceLines_le (text : String) :
    (sourceLines text.toList).length ≤ (pieces text).length := by
  rw [sourceLines_eq]
  split_ifs <;> simp

/-- Every piece is a line, but for the last one if it is empty. -/
theorem getElem?_sourceLines {text : String} {n : Nat} (hn : n < (pieces text).length) :
    (sourceLines text.toList)[n]? =
      if (pieces text)[n] = [] ∧ n + 1 = (pieces text).length then none
      else some (pieces text)[n] := by
  rw [sourceLines_eq]
  generalize pieces text = ps at hn
  by_cases hlast : n + 1 = ps.length
  · have hget : ps.getLast? = some ps[n] := by
      rw [List.getLast?_eq_getElem?, ← hlast, Nat.add_sub_cancel, List.getElem?_eq_getElem hn]
    by_cases hempty : ps[n] = []
    · simp [hget, hempty, hlast]
    · simp [hget, hempty, hn]
  · have hline : ¬(ps[n] = [] ∧ n + 1 = ps.length) := fun h ↦ hlast h.2
    rw [if_neg hline]
    have hdrop : ps.dropLast[n]? = some ps[n] := by
      rw [List.getElem?_dropLast, if_pos (by omega), List.getElem?_eq_getElem hn]
    split
    · exact hdrop
    · exact List.getElem?_eq_getElem hn

section Numbered

variable {xs : List (List Char)} {first : Nat}

theorem of_mem_flatMap_scanLine {t : Token}
    (ht : t ∈ (xs.zipIdx first).flatMap fun x ↦ scanLine x.2 x.1) :
    (∃ n < xs.length, t.span.firstLine = first + n) ∧
      t.kind ∉ [.endOfInput, .error, .negative] ∧ t.Exact := by
  obtain ⟨⟨cs, line⟩, hx, ht⟩ := List.mem_flatMap.mp ht
  obtain ⟨hline, hkind, hexact⟩ := of_mem_scanLine ht
  obtain ⟨hle, hlt, -⟩ := List.mem_zipIdx hx
  exact ⟨⟨line - first, by omega, by omega⟩, hkind, hexact⟩

/-- The tokens of numbered lines, each line its own. -/
theorem onLine_flatMap_scanLine (n : Nat) :
    onLine (first + n) ((xs.zipIdx first).flatMap fun x ↦ scanLine x.2 x.1) =
      (xs[n]?).elim [] (scanLine (first + n)) := by
  have hself : ∀ (line : Nat) (cs : List Char), onLine line (scanLine line cs) = scanLine line cs :=
    fun line cs ↦ List.filter_eq_self.mpr fun t ht ↦ beq_iff_eq.mpr (of_mem_scanLine ht).1
  induction xs generalizing first n with
  | nil => rfl
  | cons cs xs ih =>
    rw [List.zipIdx_cons, List.flatMap_cons, onLine, List.filter_append]
    cases n with
    | zero =>
      have hrest : onLine first
          ((xs.zipIdx (first + 1)).flatMap fun x ↦ scanLine x.2 x.1) = [] := by
        refine List.filter_eq_nil_iff.mpr fun t ht hline ↦ ?_
        obtain ⟨⟨n, -, hn⟩, -⟩ := of_mem_flatMap_scanLine ht
        have heq := beq_iff_eq.mp hline
        omega
      change onLine first (scanLine first cs) ++ onLine first _ = _
      rw [hself, hrest, List.append_nil]
      rfl
    | succ n =>
      have hfirst : onLine (first + (n + 1)) (scanLine first cs) = [] := by
        refine List.filter_eq_nil_iff.mpr fun t ht hline ↦ ?_
        have heq := (of_mem_scanLine ht).1.symm.trans (beq_iff_eq.mp hline)
        omega
      have hih : onLine (first + 1 + n) ((xs.zipIdx (first + 1)).flatMap fun x ↦
          scanLine x.2 x.1) = (xs[n]?).elim [] (scanLine (first + 1 + n)) := ih n
      rw [Nat.add_right_comm, Nat.add_assoc] at hih
      change onLine _ (scanLine first cs) ++ onLine _ _ = _
      rw [hfirst, List.nil_append]
      exact hih

theorem pairwise_flatMap_scanLine :
    (((xs.zipIdx first).flatMap fun x ↦ scanLine x.2 x.1).map
      (·.span.firstLine)).Pairwise (· ≤ ·) := by
  induction xs generalizing first with
  | nil => exact .nil
  | cons cs xs ih =>
    rw [List.zipIdx_cons, List.flatMap_cons, List.map_append, List.pairwise_append]
    have hfirst : ∀ l ∈ (scanLine first cs).map (·.span.firstLine), l = first := by
      intro l hl
      obtain ⟨t, ht, rfl⟩ := List.mem_map.mp hl
      exact (of_mem_scanLine ht).1
    refine ⟨List.pairwise_of_forall_mem_list fun l hl l' hl' ↦ ?_, ih, fun l hl l' hl' ↦ ?_⟩
    · exact ((hfirst l hl).trans (hfirst l' hl').symm).le
    · obtain ⟨t, ht, rfl⟩ := List.mem_map.mp hl'
      obtain ⟨⟨n, -, hn⟩, -⟩ := of_mem_flatMap_scanLine ht
      have heq := hfirst l hl
      omega

end Numbered

/-- A token of a text is on one of its lines. -/
theorem firstLine_of_mem_scan {text : String} {t : Token} (ht : t ∈ scan text) :
    ∃ n < (pieces text).length, t.span.firstLine = n + 1 := by
  obtain ⟨n, hn, hline⟩ := (of_mem_flatMap_scanLine ht).1
  exact ⟨n, hn.trans_le (length_sourceLines_le text), by omega⟩

/-- The tokens of a text carry what the grammar takes from them. -/
theorem sound_of_mem_scan {text : String} {t : Token} (ht : t ∈ scan text) : t.Sound :=
  (of_mem_flatMap_scanLine ht).2.2.sound

/-- The scanner keeps its promises for every text. -/
theorem contract_scan (text : String) : Contract text (scan text) where
  own t ht := (of_mem_flatMap_scanLine ht).2.1
  exact t ht := (of_mem_flatMap_scanLine ht).2.2
  ordered := pairwise_flatMap_scanLine
  within t ht := firstLine_of_mem_scan ht
  lines n hn := by
    rw [scan, Nat.add_comm n 1, onLine_flatMap_scanLine, getElem?_sourceLines hn,
      Nat.add_comm 1 n]
    split_ifs with habsent
    · exact .absent habsent
    · exact ofLine_scanLine habsent

end Token

end PlainLedger
