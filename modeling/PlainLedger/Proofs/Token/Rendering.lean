import PlainLedger.Proofs.Token.Tiling

/-!
# Tokens written out

A token that is written out as a lexeme and set between gaps is read as itself again. So a line that
was read without error can be written anew from its tokens, with single blanks between them, and
strings survive whatever characters they hold.
-/

namespace PlainLedger

namespace Lexeme

/-! ## How lexemes are written -/

/-- In a string, quotes and backslashes have a backslash before them. -/
def escape (c : Char) : List Char := if c = '"' ∨ c = '\\' then ['\\', c] else [c]

/-- A string as it is written. -/
def literal (text : List Char) : List Char := '"' :: text.flatMap escape ++ ['"']

/-- The terminals that carry nothing, and how they are written. -/
def spellings : List (Terminal × String) :=
  keywords.map Prod.swap ++
    [(.doubleAt, "@@"), (.doubleLeftBrace, "\x7b\x7b"), (.doubleRightBrace, "\x7d\x7d"),
      (.atSign, "@"), (.leftBrace, "\x7b"), (.rightBrace, "\x7d"), (.pipe, "|"), (.equals, "="),
      (.comma, ","), (.tilde, "~"), (.asterisk, "*"), (.slash, "/"), (.plus, "+"), (.minus, "-"),
      (.leftParen, "("), (.rightParen, ")"), (.hash, "#")]

def spelling (t : Terminal) : List Char := ((spellings.lookup t).getD "").toList

/-- Strings are quoted, and keys, tags and links have their marks; every other text is written as it
is. -/
def render (kind : Terminal) : Payload → List Char
  | .none => spelling kind
  | .char c => [c]
  | .text s =>
    match kind with
    | .string => literal s.toList
    | .key => s.toList ++ [':']
    | .tag => '#' :: s.toList
    | .link => '^' :: s.toList
    | _ => s.toList

/-- The end of the line or a blank comes next. -/
def Ends (rest : List Char) : Prop := ∀ c ∈ rest.head?, c = ' '

/-- The characters can stand at the end of a line. -/
structure Neat (cs : List Char) : Prop where
  unbroken : '\n' ∉ cs
  last : cs.getLast? ≠ some '\r'

/-- Written out, a lexeme that begins with `c` is read as itself. -/
structure Restored (f : List Char → Lexeme) (c : Char) (kind : Terminal) (payload : Payload)
    (tail : List Char) : Prop where
  render : render kind payload = c :: tail
  read (rest : List Char) (h : Ends rest) : f (tail ++ rest) = ⟨kind, payload, tail.length + 1⟩
  neat : Neat (c :: tail)

/-- What begins with `c` and is read as a lexeme can be written out. -/
def Restores (f : List Char → Lexeme) (c : Char) (x : Lexeme) : Prop :=
  ∃ tail, Restored f c x.kind x.payload tail

theorem render_text {kind : Terminal} (h : kind ∉ [.string, .key, .tag, .link]) (s : String) :
    render kind (.text s) = s.toList := by
  cases kind <;> first | rfl | exact (h (by decide)).elim

section Parts

variable {c : Char} {cs rest : List Char}

/-- A lexeme that is written with as many characters as it was read from is read as the same. -/
theorem Restores.of_same {f : List Char → Lexeme} {x : Lexeme} (tail : List Char)
    (hrender : Lexeme.render x.kind x.payload = c :: tail) (hwidth : x.width = tail.length + 1)
    (hread : ∀ rest, Ends rest → f (tail ++ rest) = x) (hneat : Neat (c :: tail)) :
    Restores f c x :=
  ⟨tail, hrender, fun rest hrest ↦ by rw [hread rest hrest, ← hwidth], hneat⟩

theorem neat_of_forall {p : Char → Bool} (h : ∀ d ∈ cs, p d = true)
    (hbreak : p '\n' = false) (hreturn : p '\r' = false) : Neat cs where
  unbroken hmem := by
    rw [h _ hmem] at hbreak
    cases hbreak
  last hlast := by
    rw [h _ (List.mem_of_getLast? hlast)] at hreturn
    cases hreturn

/-- What a word is made of does not go on with a blank. -/
theorem takeWhile_append_ends {p : Char → Bool} (h : ∀ d ∈ cs, p d = true) (hblank : p ' ' = false)
    (hrest : Ends rest) : (cs ++ rest).takeWhile p = cs := by
  rw [List.takeWhile_append_of_pos h]
  cases rest with
  | nil => exact List.append_nil cs
  | cons d rest =>
    rw [hrest d rfl, List.takeWhile_cons, hblank]
    exact List.append_nil cs

theorem Ends.ne_some {d : Char} (hrest : Ends rest) (hd : d ≠ ' ') : rest.head? ≠ some d :=
  fun h ↦ hd (hrest d h)

theorem Ends.not_digit (hrest : Ends rest) : rest.head?.any Char.isDigit = false := by
  cases rest with
  | nil => rfl
  | cons d rest =>
    rw [hrest d rfl]
    rfl

/-! ## Strings -/

theorem quoted_literal (text rest : List Char) :
    quoted (text.flatMap escape ++ '"' :: rest) =
      (text, (text.flatMap escape).length + 1, true) := by
  induction text with
  | nil => simp [quoted]
  | cons c text ih =>
    rw [List.flatMap_cons, List.append_assoc, List.length_append]
    by_cases hc : c = '"' ∨ c = '\\'
    · rw [show escape c = ['\\', c] from if_pos hc, List.cons_append, List.singleton_append, quoted,
        ih]
      exact congrArg (fun width ↦ (c :: text, width, true)) (by simp; omega)
    · obtain ⟨hquote, hback⟩ := not_or.mp hc
      rw [show escape c = [c] from if_neg hc, List.singleton_append]
      simp [quoted, ih, hquote, hback, Nat.add_comm]

theorem restored_literal {s : String} (h : '\n' ∉ s.toList) :
    Restored ofQuoted '"' .string (.text s) (s.toList.flatMap escape ++ ['"']) where
  render := rfl
  read rest _ := by
    rw [List.append_assoc, List.singleton_append, ofQuoted, quoted_literal]
    simp [ofText]
  neat := by
    constructor
    · rw [List.mem_cons, List.mem_append, List.mem_flatMap]
      rintro (hbreak | ⟨c, hc, hbreak⟩ | hbreak)
      · cases hbreak
      · unfold escape at hbreak
        split at hbreak
        · simp only [List.mem_cons, List.not_mem_nil, or_false] at hbreak
          rcases hbreak with hbreak | rfl
          · cases hbreak
          · exact h hc
        · obtain rfl := List.mem_singleton.mp hbreak
          exact h hc
      · cases List.mem_singleton.mp hbreak
    · rw [← List.cons_append, List.getLast?_concat]
      decide

/-- A string holds only characters of its line. -/
theorem mem_of_mem_quoted {d : Char} (h : d ∈ (quoted cs).1) : d ∈ cs := by
  fun_induction quoted cs with
  | case1 => exact h
  | case2 => exact h
  | case3 c rest text width closed hrest ih =>
    rw [hrest] at ih
    rcases List.mem_cons.mp h with rfl | h
    · exact List.mem_cons_of_mem _ (List.mem_cons_self ..)
    · exact List.mem_cons_of_mem _ (List.mem_cons_of_mem _ (ih h))
  | case4 => cases h
  | case5 c rest _ _ _ text width closed hrest ih =>
    rw [hrest] at ih
    rcases List.mem_cons.mp h with rfl | h
    · exact List.mem_cons_self ..
    · exact List.mem_cons_of_mem _ (ih h)

theorem restores_ofQuoted (hline : '\n' ∉ cs) (hkind : (ofQuoted cs).kind ≠ .lexError) :
    Restores ofQuoted '"' (ofQuoted cs) := by
  have htext : ∀ d, d ∈ (quoted cs).1 → d ∈ cs := fun d ↦ mem_of_mem_quoted
  generalize hx : ofQuoted cs = x at hkind ⊢
  unfold ofQuoted at hx
  split at hx
  · rename_i text width hquoted
    rw [hquoted] at htext
    subst hx
    exact ⟨_, restored_literal fun hbreak ↦ hline (htext _ (by simpa [ofText] using hbreak))⟩
  · exact (hkind (congrArg Lexeme.kind hx).symm).elim

/-! ## Dates and numbers -/

/-- What numbers are written with. -/
def isNumberChar (c : Char) : Bool := c.isDigit || c == '.' || c == ','

theorem isNumberChar_of_mem_digits {d : Char} (h : d ∈ digits cs) : isNumberChar d = true := by
  induction cs with
  | nil => cases h
  | cons c rest ih =>
    unfold digits at h
    split at h
    · rename_i hc
      rcases List.mem_cons.mp h with rfl | h
      · unfold isNumberChar
        revert hc
        simp only [Bool.or_eq_true, Bool.and_eq_true]
        tauto
      · exact ih h
    · cases h

/-- A number ends before a blank. -/
theorem digits_append_ends (cs : List Char) (hrest : Ends rest) :
    digits (digits cs ++ rest) = digits cs := by
  have hnil : digits ([] ++ rest) = [] := by
    cases rest with
    | nil => rfl
    | cons d rest =>
      rw [hrest d rfl]
      rfl
  induction cs with
  | nil => exact hnil
  | cons c cs ih =>
    by_cases hc : c.isDigit || c == '.' || (c == ',' && cs.head?.any Char.isDigit)
    · have hdigits : digits (c :: cs) = c :: digits cs := if_pos hc
      have hc' : c.isDigit || c == '.' ||
          (c == ',' && (digits cs ++ rest).head?.any Char.isDigit) := by
        cases cs with
        | nil =>
          simp only [List.head?_nil, Option.any_none, Bool.and_false, Bool.or_false] at hc
          simp [hc]
        | cons d cs =>
          by_cases hd : d.isDigit = true
          · have hnext : digits (d :: cs) = d :: digits cs := if_pos (by simp [hd])
            rw [hnext]
            exact hc
          · simp [hd] at hc
            simp [hc]
      rw [hdigits, List.cons_append, digits, if_pos hc', ih]
    · rw [show digits (c :: cs) = [] from if_neg hc]
      exact hnil

/-- A date does not go on like a number. -/
theorem head?_of_beginsWithDate (h : beginsWithDate cs = true) :
    ∃ s, (cs.dropWhile isNumberChar).head? = some s ∧ s ≠ ' ' := by
  unfold beginsWithDate at h
  split at h
  · rename_i s m₁ m₂ s₂ d₁ d₂ rest
    simp only [List.all_cons, Bool.and_eq_true, Bool.or_eq_true, beq_iff_eq] at h
    obtain ⟨⟨⟨⟨hy₁, hy₂, hy₃, hy₄, -⟩, hs⟩, -⟩, -⟩ := h
    refine ⟨s, ?_, ?_⟩
    · have hseparator : isNumberChar s = false := by
        rcases hs with rfl | rfl <;> rfl
      have hnumber : ∀ {d : Char}, d.isDigit = true → isNumberChar d = true := fun hd ↦ by
        simp [isNumberChar, hd]
      simp [hnumber hy₁, hnumber hy₂, hnumber hy₃, hnumber hy₄, hseparator]
    · rcases hs with rfl | rfl <;> decide
  · cases h

theorem not_beginsWithDate_digits (cs : List Char) (hrest : Ends rest) :
    beginsWithDate (digits cs ++ rest) = false := by
  by_contra hdate
  obtain ⟨s, hs, hne⟩ := head?_of_beginsWithDate (eq_true_of_ne_false hdate)
  rw [List.dropWhile_append_of_pos fun d hd ↦ isNumberChar_of_mem_digits hd] at hs
  cases rest with
  | nil => cases hs
  | cons d rest =>
    obtain rfl := hrest d rfl
    exact hne (Option.some.inj hs).symm

/-- A date is read from ten characters. -/
theorem date_append_ends (h : beginsWithDate cs = true) (hrest : Ends rest) :
    beginsWithDate (cs.take 10 ++ rest) = true ∧ (cs.take 10).length = 10 ∧
      ∀ d ∈ cs.take 10, (d.isDigit || d == '-' || d == '/') = true := by
  have hdigit := hrest.not_digit
  unfold beginsWithDate at h
  split at h
  · simp only [List.all_cons, Bool.and_eq_true, Bool.or_eq_true, beq_iff_eq] at h
    refine ⟨?_, rfl, ?_⟩
    · simp [beginsWithDate, h, hdigit]
    · intro d hd
      obtain ⟨⟨⟨⟨hy₁, hy₂, hy₃, hy₄, hm₁, hm₂, hd₁, hd₂, -⟩, hs⟩, rfl⟩, -⟩ := h
      simp only [List.take_succ_cons, List.take_zero, List.mem_cons, List.not_mem_nil,
        or_false] at hd
      rcases hs with rfl | rfl <;>
        rcases hd with rfl | rfl | rfl | rfl | rfl | rfl | rfl | rfl | rfl | rfl <;>
        simp [*]
  · cases h

theorem restores_ofDigits (hc : c.isDigit = true) :
    Restores (fun rest ↦ ofDigits (c :: rest)) c (ofDigits (c :: cs)) := by
  unfold ofDigits
  by_cases hdate : beginsWithDate (c :: cs) = true
  · have htake : (c :: cs).take 10 = c :: cs.take 9 := rfl
    obtain ⟨-, hlength, hchars⟩ := date_append_ends hdate (show Ends [] from nofun)
    simp only [hdate, if_true]
    refine .of_same (cs.take 9) ?_ ?_ (fun rest hrest ↦ ?_) ?_
    · simp [ofText, render, htake]
    · rw [← List.length_cons, ← htake, hlength]
      rfl
    · obtain ⟨hread, -⟩ := date_append_ends hdate hrest
      rw [← List.cons_append, ← htake, hread, if_pos rfl, List.take_left' hlength]
    · rw [← htake]
      exact neat_of_forall hchars rfl rfl
  · have hdigits : digits (c :: cs) = c :: digits cs := if_pos (by simp [hc])
    simp only [hdate]
    refine .of_same (digits cs) ?_ ?_ (fun rest hrest ↦ ?_) ?_
    · simp [ofText, render, hdigits]
    · rw [hdigits]
      rfl
    · rw [← List.cons_append, ← hdigits, not_beginsWithDate_digits _ hrest,
        digits_append_ends _ hrest]
      rfl
    · rw [← hdigits]
      exact neat_of_forall (fun d ↦ isNumberChar_of_mem_digits) rfl rfl

/-! ## Words -/

theorem restores_ofName (hc : c.isUpper = true) (hkind : (ofName (c :: cs)).kind ≠ .lexError) :
    Restores (fun rest ↦ ofName (c :: rest)) c (ofName (c :: cs)) := by
  have hfirst : isNameChar c = true := by
    simp [isNameChar, Char.isAlphanum, isAlpha_of_isUpper hc]
  have hword : (c :: cs).takeWhile isNameChar = c :: cs.takeWhile isNameChar := by
    rw [List.takeWhile_cons, if_pos hfirst]
  have hname : ∀ d ∈ c :: cs.takeWhile isNameChar, isNameChar d = true := fun d hd ↦
    List.mem_takeWhile_imp (hword ▸ hd)
  have htext : ∃ kind : Terminal, ofName (c :: cs) = ofText kind (c :: cs.takeWhile isNameChar)
      (cs.takeWhile isNameChar).length.succ ∧ kind ∉ [.string, .key, .tag, .link] := by
    unfold ofName at hkind ⊢
    rw [hword] at hkind ⊢
    dsimp only at hkind ⊢
    split_ifs at hkind ⊢
    · exact ⟨_, rfl, by decide⟩
    · exact ⟨_, rfl, by decide⟩
    · exact ⟨_, rfl, by decide⟩
    · exact (hkind rfl).elim
  refine .of_same (cs.takeWhile isNameChar) ?_ ?_ (fun rest hrest ↦ ?_)
    (neat_of_forall hname rfl rfl)
  · obtain ⟨kind, heq, hplain⟩ := htext
    rw [heq, ofText, render_text hplain, String.toList_ofList]
  · obtain ⟨kind, heq, -⟩ := htext
    rw [heq]
    rfl
  · unfold ofName
    rw [← List.cons_append, takeWhile_append_ends hname rfl hrest, hword]

theorem spelling_of_mem_keywords : ∀ k ∈ keywords, spelling k.2 = k.1.toList := by decide

theorem restores_ofWord (hc : c.isLower = true) (hkind : (ofWord (c :: cs)).kind ≠ .lexError) :
    Restores (fun rest ↦ ofWord (c :: rest)) c (ofWord (c :: cs)) := by
  have hfirst : isWordChar c = true := by
    simp [isWordChar, Char.isAlphanum, isAlpha_of_isLower hc]
  have hword : (c :: cs).takeWhile isWordChar = c :: cs.takeWhile isWordChar := by
    rw [List.takeWhile_cons, if_pos hfirst]
  have hname : ∀ d ∈ c :: cs.takeWhile isWordChar, isWordChar d = true := fun d hd ↦
    List.mem_takeWhile_imp (hword ▸ hd)
  generalize hx : ofWord (c :: cs) = x at hkind ⊢
  unfold ofWord at hx
  rw [hword] at hx
  dsimp only at hx
  split at hx
  · -- the key of a metadata line
    subst hx
    refine .of_same (cs.takeWhile isWordChar ++ [':']) ?_ ?_ (fun rest hrest ↦ ?_) ?_
    · simp [ofText, render]
    · simp [ofText]
    · have htake : (c :: (cs.takeWhile isWordChar ++ ':' :: rest)).takeWhile isWordChar =
          c :: cs.takeWhile isWordChar := by
        rw [← List.cons_append, List.takeWhile_append_of_pos hname]
        simp [isWordChar]
      rw [List.append_assoc, List.singleton_append, ofWord, htake, if_pos]
      rw [← List.cons_append, List.getElem?_append_right (Nat.le_refl _), Nat.sub_self]
      rfl
    · refine neat_of_forall (p := fun d ↦ d == ':' || isWordChar d) (fun d hd ↦ ?_) rfl rfl
      rw [← List.cons_append] at hd
      rcases List.mem_append.mp hd with hd | hd
      · simp [hname d hd]
      · simp [List.mem_singleton.mp hd]
  · split at hx
    · -- a keyword
      rename_i text kind hfind
      subst hx
      have htext : text.toList = c :: cs.takeWhile isWordChar := by
        simpa using List.find?_some hfind
      refine .of_same (cs.takeWhile isWordChar) ?_ rfl (fun rest hrest ↦ ?_)
        (neat_of_forall hname rfl rfl)
      · exact (spelling_of_mem_keywords _ (List.mem_of_find?_eq_some hfind)).trans htext
      · rw [← List.cons_append, ofWord, takeWhile_append_ends hname rfl hrest, if_neg, hfind]
        rw [List.getElem?_append_right (Nat.le_refl _), Nat.sub_self, ← List.head?_eq_getElem?]
        exact hrest.ne_some (by decide)
    · exact (hkind (congrArg Lexeme.kind hx).symm).elim

theorem restores_ofHash (cs : List Char) : Restores ofHash '#' (ofHash cs) := by
  have hname : ∀ d ∈ cs.takeWhile isLabelChar, isLabelChar d = true :=
    fun d ↦ List.mem_takeWhile_imp
  refine .of_same (cs.takeWhile isLabelChar) ?_ ?_ (fun rest hrest ↦ ?_) ?_
  · unfold ofHash
    dsimp only
    split
    · rename_i hempty
      rw [List.isEmpty_iff.mp hempty]
      rfl
    · simp [ofText, render]
  · unfold ofHash
    dsimp only
    split
    · rename_i hempty
      rw [List.isEmpty_iff.mp hempty]
      rfl
    · rfl
  · unfold ofHash
    rw [takeWhile_append_ends hname rfl hrest]
  · refine neat_of_forall (p := fun d ↦ d == '#' || isLabelChar d) (fun d hd ↦ ?_) rfl rfl
    rcases List.mem_cons.mp hd with rfl | hd
    · rfl
    · simp [hname d hd]

theorem restores_ofCaret (cs : List Char) : Restores ofCaret '^' (ofCaret cs) := by
  have hname : ∀ d ∈ cs.takeWhile isLabelChar, isLabelChar d = true :=
    fun d ↦ List.mem_takeWhile_imp
  refine .of_same (cs.takeWhile isLabelChar) ?_ rfl (fun rest hrest ↦ ?_) ?_
  · simp [ofCaret, ofText, render]
  · unfold ofCaret
    rw [takeWhile_append_ends hname rfl hrest]
  · refine neat_of_forall (p := fun d ↦ d == '^' || isLabelChar d) (fun d hd ↦ ?_) rfl rfl
    rcases List.mem_cons.mp hd with rfl | hd
    · rfl
    · simp [hname d hd]

/-! ## Marks -/

theorem spelling_of_double? {kind : Terminal} (h : double? c = some kind) :
    spelling kind = [c, c] ∧ Neat [c, c] := by
  unfold double? at h
  split at h <;> cases h <;> exact ⟨by decide, by decide, by decide⟩

theorem spelling_of_single? {kind : Terminal} (h : single? c = some kind) :
    spelling kind = [c] ∧ Neat [c] := by
  unfold single? at h
  split at h <;> cases h <;> exact ⟨by decide, by decide, by decide⟩

theorem restores_ofMark (hc : c ≠ ' ') (hkind : (ofMark c cs).kind ≠ .lexError) :
    Restores (ofMark c) c (ofMark c cs) := by
  have hread : ∀ rest, Ends rest → ofMark c rest =
      (single? c).elim (if isFlag c then ⟨.flag, .char c, 1⟩ else invalid [c])
        fun kind ↦ ⟨kind, .none, 1⟩ := fun rest hrest ↦ by
    rw [ofMark, beq_false_of_ne (hrest.ne_some hc)]
    split
    · rename_i hfalse
      cases hfalse
    · cases single? c <;> rfl
  generalize hx : ofMark c cs = x at hkind ⊢
  unfold ofMark at hx
  split at hx
  · rename_i kind hdouble hhead
    obtain ⟨hspelling, hneat⟩ := spelling_of_double? hdouble
    subst hx
    refine .of_same [c] hspelling rfl (fun rest _ ↦ ?_) hneat
    simp [ofMark, hdouble]
  · have hread : ∀ rest, Ends rest → ofMark c rest = x := fun rest hrest ↦ by
      rw [hread rest hrest, ← hx]
      cases single? c <;> rfl
    split at hx
    · rename_i kind hsingle
      obtain ⟨hspelling, hneat⟩ := spelling_of_single? hsingle
      subst hx
      exact .of_same [] hspelling rfl hread hneat
    · split at hx
      · rename_i hflag
        subst hx
        exact .of_same [] rfl rfl hread
          (neat_of_forall (p := isFlag) (fun d hd ↦ List.mem_singleton.mp hd ▸ hflag) rfl rfl)
      · exact (hkind (congrArg Lexeme.kind hx).symm).elim

/-- Whatever is read without error, other than a comment, can be written out. -/
theorem restores_read (hc : isGap c = false) (hline : '\n' ∉ cs)
    (herror : (read c cs).kind ≠ .lexError) (hcomment : (read c cs).kind ≠ .comment) :
    Restores (read c) c (read c cs) := by
  by_cases hsemicolon : c = ';'
  · refine (hcomment ?_).elim
    rw [read, if_pos hsemicolon]
    rfl
  by_cases hquote : c = '"'
  · have hread : read c = ofQuoted := funext fun rest ↦ by simp [read, hquote]
    rw [hread] at herror ⊢
    subst hquote
    exact restores_ofQuoted hline herror
  by_cases hdigit : c.isDigit = true
  · have hread : read c = fun rest ↦ ofDigits (c :: rest) := funext fun rest ↦ by
      simp [read, hsemicolon, hquote, hdigit]
    rw [hread]
    exact restores_ofDigits hdigit
  by_cases hupper : c.isUpper = true
  · have hread : read c = fun rest ↦ ofName (c :: rest) := funext fun rest ↦ by
      simp [read, hsemicolon, hquote, hdigit, hupper]
    rw [hread] at herror ⊢
    exact restores_ofName hupper herror
  by_cases hlower : c.isLower = true
  · have hread : read c = fun rest ↦ ofWord (c :: rest) := funext fun rest ↦ by
      simp [read, hsemicolon, hquote, hdigit, hupper, hlower]
    rw [hread] at herror ⊢
    exact restores_ofWord hlower herror
  by_cases hhash : c = '#'
  · have hread : read c = ofHash := funext fun rest ↦ by
      subst hhash
      rfl
    rw [hread]
    subst hhash
    exact restores_ofHash cs
  by_cases hcaret : c = '^'
  · have hread : read c = ofCaret := funext fun rest ↦ by
      subst hcaret
      rfl
    rw [hread]
    subst hcaret
    exact restores_ofCaret cs
  have hread : read c = ofMark c := funext fun rest ↦ by
    simp [read, hsemicolon, hquote, hdigit, hupper, hlower, hhash, hcaret]
  rw [hread] at herror ⊢
  refine restores_ofMark (fun hblank ↦ ?_) herror
  rw [hblank] at hc
  cases hc

end Parts

end Lexeme

/-! ## Lines -/

namespace Token

/-- What a token is and carries, wherever it stands. -/
def content (t : Token) : Terminal × Payload := (t.kind, t.payload)

def written (t : Token) : List Char := Lexeme.render t.kind t.payload

/-- The tokens on one line, which is indented, with single blanks between them. -/
def writtenLine (ts : List Token) : List Char := ' ' :: ' ' :: [' '].intercalate (ts.map written)

/-- The tokens of a line that say something, and not only where it begins and ends. -/
def spoken (ts : List Token) : List Token :=
  ts.filter fun t ↦ t.kind ∉ [.indent, .comment, .skipped, .eol]

/-- The token can be written out. -/
def Writable (t : Token) : Prop :=
  ∃ c tail, Lexeme.isGap c = false ∧ c ≠ ';' ∧
    Lexeme.Restored (Lexeme.read c) c t.kind t.payload tail

section Written

variable {line column : Nat} {c : Char} {cs : List Char} {t : Token} {ts : List Token}

/-- A token of a line, as it was read. -/
theorem exists_read_of_mem_scanLexemes {skip : Nat} (ht : t ∈ scanLexemes line column skip cs) :
    ∃ c rest, c :: rest <:+ cs ∧ Lexeme.isGap c = false ∧ (Lexeme.read c rest).kind = t.kind ∧
      (Lexeme.read c rest).payload = t.payload := by
  induction cs generalizing column skip with
  | nil => cases ht
  | cons c rest ih =>
    have hrest : ∀ {column skip : Nat}, t ∈ scanLexemes line column skip rest →
        ∃ d others, d :: others <:+ c :: rest ∧ Lexeme.isGap d = false ∧
          (Lexeme.read d others).kind = t.kind ∧ (Lexeme.read d others).payload = t.payload := by
      intro column skip ht
      obtain ⟨d, others, hsuffix, hread⟩ := ih ht
      exact ⟨d, others, hsuffix.trans (List.suffix_cons ..), hread⟩
    cases skip with
    | succ skip => exact hrest ht
    | zero =>
      unfold scanLexemes at ht
      split at ht
      · exact hrest ht
      · rename_i hc
        rcases List.mem_cons.mp ht with rfl | ht
        · exact ⟨c, rest, List.suffix_refl _, by simpa using hc, rfl, rfl⟩
        · exact hrest ht

theorem writable_of_mem_scanLexemes (ht : t ∈ scanLexemes line column 0 cs) (hline : '\n' ∉ cs)
    (herror : t.kind ≠ .lexError) (hcomment : t.kind ≠ .comment) : t.Writable := by
  obtain ⟨c, rest, hsuffix, hgap, hkind, hpayload⟩ := exists_read_of_mem_scanLexemes ht
  have hrest : '\n' ∉ rest := fun h ↦ hline (hsuffix.subset (List.mem_cons_of_mem _ h))
  rw [← hkind] at herror hcomment
  obtain ⟨tail, hrestored⟩ := Lexeme.restores_read hgap hrest herror hcomment
  rw [hkind, hpayload] at hrestored
  refine ⟨c, tail, hgap, ?_, hrestored⟩
  rintro rfl
  exact hcomment rfl

theorem writable_of_mem_scanLine (ht : t ∈ scanLine line cs) (hline : '\n' ∉ cs)
    (herror : t.kind ≠ .lexError) (hspoken : t.kind ∉ [.indent, .comment, .skipped, .eol]) :
    t.Writable := by
  have hcomment : t.kind ≠ .comment := fun h ↦ hspoken (by simp [h])
  have hlexeme : ∀ {column : Nat} {body : List Char}, body.Sublist cs →
      t ∈ scanLexemes line column 0 body → t.Writable := fun hbody ht ↦
    writable_of_mem_scanLexemes ht (fun h ↦ hline (hbody.subset h)) herror hcomment
  unfold scanLine at ht
  dsimp only at ht
  split_ifs at ht <;>
    simp only [List.mem_append, List.mem_cons, List.not_mem_nil, or_false] at ht
  · exact (hspoken (by simp [ht, endOfLine, bare])).elim
  · rcases ht with (rfl | ht) | rfl
    · exact (hspoken (by simp [bare])).elim
    · exact hlexeme (List.dropWhile_sublist _) ht
    · exact (hspoken (by simp [endOfLine, bare])).elim
  · exact (hspoken (by simp [ht, bare])).elim
  · rcases ht with ht | rfl
    · exact hlexeme (List.Sublist.refl _) ht
    · exact (hspoken (by simp [endOfLine, bare])).elim

theorem unbroken_of_mem_lines {text : List Char} (h : cs ∈ lines text) : '\n' ∉ cs := by
  induction text generalizing cs with
  | nil =>
    rw [List.mem_singleton.mp h]
    exact List.not_mem_nil
  | cons c rest ih =>
    unfold lines at h
    split at h
    · rcases List.mem_cons.mp h with rfl | h
      · exact List.not_mem_nil
      · exact ih h
    · rename_i hc
      split at h
      · rw [List.mem_singleton.mp h, List.mem_singleton]
        exact fun heq ↦ hc heq.symm
      · rename_i hlines
        rcases List.mem_cons.mp h with rfl | h
        · rw [List.mem_cons, not_or]
          exact ⟨fun heq ↦ hc heq.symm, ih (hlines ▸ List.mem_cons_self ..)⟩
        · exact ih (hlines ▸ List.mem_cons_of_mem _ h)

theorem unbroken_of_mem_pieces {text : String} (h : cs ∈ pieces text) : '\n' ∉ cs := by
  obtain ⟨whole, hwhole, rfl⟩ := List.mem_map.mp h
  rw [← lines_eq_splitOn] at hwhole
  exact fun hbreak ↦ unbroken_of_mem_lines hwhole ((List.rdropWhile_prefix _ _).subset hbreak)

/-- A token that is written out before a gap or the end of the line is read as itself. -/
theorem scanLexemes_written {tail rest : List Char} (hc : Lexeme.isGap c = false)
    (h : Lexeme.Restored (Lexeme.read c) c t.kind t.payload tail) (hrest : Lexeme.Ends rest) :
    scanLexemes line column 0 (c :: (tail ++ rest)) =
      ⟨t.kind, t.payload, columns line column (column + (tail.length + 1))⟩ ::
        scanLexemes line (column + 1 + tail.length) 0 rest := by
  rw [scanLexemes, if_neg (by simp [hc]), h.read rest hrest]
  dsimp only
  rw [Nat.add_sub_cancel, scanLexemes_append]

theorem content_scanLexemes (line column : Nat) (h : ∀ t ∈ ts, t.Writable) :
    (scanLexemes line column 0 ([' '].intercalate (ts.map written))).map content =
      ts.map content := by
  induction ts generalizing column with
  | nil => rfl
  | cons t ts ih =>
    obtain ⟨c, tail, hgap, -, hrestored⟩ := h t (List.mem_cons_self ..)
    cases ts with
    | nil =>
      rw [List.map_singleton, List.intercalate_singleton, written, hrestored.render,
        ← List.append_nil tail, scanLexemes_written hgap hrestored (show Lexeme.Ends [] from nofun)]
      rfl
    | cons u us =>
      have hgap' : scanLexemes line (column + 1 + tail.length) 0
          (' ' :: [' '].intercalate ((u :: us).map written)) =
        scanLexemes line (column + 1 + tail.length + 1) 0
          ([' '].intercalate ((u :: us).map written)) := rfl
      rw [List.map_cons, List.map_cons, List.intercalate_cons_cons, ← List.map_cons, written,
        hrestored.render, List.append_assoc, List.singleton_append, List.cons_append,
        scanLexemes_written hgap hrestored (by simp [Lexeme.Ends]), hgap', List.map_cons,
        ih _ fun v hv ↦ h v (List.mem_cons_of_mem _ hv)]
      rfl

/-- Tokens written out make a line. -/
theorem neat_written (h : ∀ t ∈ ts, t.Writable) :
    Lexeme.Neat ([' '].intercalate (ts.map written)) := by
  induction ts with
  | nil => exact ⟨List.not_mem_nil, nofun⟩
  | cons t ts ih =>
    obtain ⟨c, tail, -, -, hrestored⟩ := h t (List.mem_cons_self ..)
    have hneat := hrestored.neat
    rw [← hrestored.render] at hneat
    have ih := ih fun u hu ↦ h u (List.mem_cons_of_mem _ hu)
    cases ts with
    | nil =>
      rw [List.map_singleton, List.intercalate_singleton]
      exact hneat
    | cons u us =>
      rw [List.map_cons, List.map_cons, List.intercalate_cons_cons, ← List.map_cons]
      constructor
      · rw [List.mem_append, List.mem_append, not_or, not_or]
        exact ⟨⟨hneat.unbroken, by decide⟩, ih.unbroken⟩
      · have hlast := ih.last
        rw [List.getLast?_append, List.getLast?_concat]
        cases hrest : ([' '].intercalate ((u :: us).map written)).getLast? with
        | none => decide
        | some d => rwa [hrest] at hlast

/-- A text of one line. -/
theorem scan_ofList (hcs : Lexeme.Neat cs) (hne : cs ≠ []) :
    scan (String.ofList cs) = scanLine 1 cs := by
  have hpieces : pieces (String.ofList cs) = [cs] := by
    rw [pieces, String.toList_ofList, List.splitOn_eq_singleton hcs.unbroken, List.map_singleton,
      List.rdropWhile_eq_self_iff.mpr]
    intro hne hlast
    exact hcs.last (by rw [List.getLast?_eq_some_getLast hne, beq_iff_eq.mp hlast])
  have hlines : sourceLines (String.ofList cs).toList = [cs] := by
    rw [sourceLines_eq, hpieces, if_neg]
    simpa using hne
  rw [scan, hlines]
  exact List.append_nil _

/-- What is written out begins neither with a gap nor with a comment. -/
theorem exists_written_cons (h : ∀ t ∈ ts, t.Writable) (hne : ts ≠ []) :
    ∃ d others, [' '].intercalate (ts.map written) = d :: others ∧ Lexeme.isGap d = false ∧
      d ≠ ';' := by
  obtain ⟨t, us, rfl⟩ := List.exists_cons_of_ne_nil hne
  obtain ⟨c, tail, hgap, hcomment, hrestored⟩ := h t (List.mem_cons_self ..)
  have hwritten : written t = c :: tail := hrestored.render
  cases us with
  | nil =>
    refine ⟨c, tail, ?_, hgap, hcomment⟩
    rw [List.map_singleton, List.intercalate_singleton, hwritten]
  | cons u us =>
    refine ⟨c, tail ++ [' '] ++ [' '].intercalate ((u :: us).map written), ?_, hgap, hcomment⟩
    rw [List.map_cons, List.map_cons, List.intercalate_cons_cons, hwritten, ← List.map_cons]
    rfl

/-- Tokens written out on a line are read as the same. -/
theorem content_scan_writtenLine (h : ∀ t ∈ ts, t.Writable) (hne : ts ≠ []) :
    (scan (String.ofList (writtenLine ts))).map content =
      (.indent, .none) :: ts.map content ++ [(.eol, .none)] := by
  have hneat := neat_written h
  have hlexemes := content_scanLexemes 1 2 h
  obtain ⟨d, others, hbody, hgap, hcomment⟩ := exists_written_cons h hne
  unfold writtenLine
  rw [hbody] at hneat hlexemes ⊢
  rw [scan_ofList ⟨by simpa using hneat.unbroken, by simpa using hneat.last⟩ (by simp)]
  have hscan : scanLine 1 (' ' :: ' ' :: d :: others) =
      bare .indent (columns 1 0 2) :: scanLexemes 1 2 0 (d :: others) ++
        [endOfLine 1 (others.length + 3)] := by
    have hblank : Lexeme.isGap ' ' = true := rfl
    have hindent : (' ' :: ' ' :: d :: others).takeWhile Lexeme.isGap = [' ', ' '] := by
      simp [hblank, hgap]
    have hrest : (' ' :: ' ' :: d :: others).dropWhile Lexeme.isGap = d :: others := by
      simp [hblank, hgap]
    unfold scanLine
    rw [hindent, hrest]
    simp [hcomment]
  rw [hscan, List.map_append, List.map_cons, hlexemes]
  rfl

end Written

/-- A string without a line feed is read back from its literal. -/
theorem content_scan_literal {s : String} (h : '\n' ∉ s.toList) :
    (scan (String.ofList (Lexeme.literal s.toList))).map content =
      [(.string, .text s), (.eol, .none)] := by
  have hread : Lexeme.read '"' = Lexeme.ofQuoted := funext fun rest ↦ by simp [Lexeme.read]
  have hrestored := Lexeme.restored_literal h
  have hwritable : (ofText .string s .start).Writable :=
    ⟨'"', _, rfl, by decide, hread.symm ▸ hrestored⟩
  have hlexemes := content_scanLexemes 1 0 fun (t : Token) (ht : t ∈ [ofText .string s .start]) ↦
    List.mem_singleton.mp ht ▸ hwritable
  rw [List.map_singleton, List.intercalate_singleton, List.map_singleton] at hlexemes
  have hneat : Lexeme.Neat (Lexeme.literal s.toList) := hrestored.neat
  rw [scan_ofList hneat (List.cons_ne_nil _ _)]
  have hscan : scanLine 1 (Lexeme.literal s.toList) =
      scanLexemes 1 0 0 (Lexeme.literal s.toList) ++
        [endOfLine 1 (Lexeme.literal s.toList).length] := by
    have hquote : ∀ rest, isHeading ('"' :: rest) = false := fun rest ↦ by cases rest <;> rfl
    have hheading : isHeading (Lexeme.literal s.toList) = false := hquote _
    have hgap : Lexeme.isGap '"' = false := rfl
    unfold scanLine
    rw [hheading]
    simp [Lexeme.literal, hgap]
  rw [hscan, List.map_append]
  exact congrArg (· ++ [(.eol, .none)]) hlexemes

/-- Scanning undoes writing: a line that is read without error is read the same when its tokens are
written anew, and so is every string on one line. -/
theorem scan_undoes_writing :
    (∀ (text : String) (line : Nat), (∀ t ∈ onLine line (scan text), t.kind ≠ .lexError) →
      spoken (onLine line (scan text)) ≠ [] →
        (scan (String.ofList (writtenLine (spoken (onLine line (scan text)))))).map content =
          (.indent, .none) :: (spoken (onLine line (scan text))).map content ++ [(.eol, .none)]) ∧
    ∀ s : String, '\n' ∉ s.toList →
      (scan (String.ofList (Lexeme.literal s.toList))).map content =
        [(.string, .text s), (.eol, .none)] := by
  refine ⟨fun text line herror hne ↦ content_scan_writtenLine (fun t ht ↦ ?_) hne,
    fun s ↦ content_scan_literal⟩
  obtain ⟨honLine, hspoken⟩ := List.mem_filter.mp ht
  obtain ⟨n, hn, hline⟩ := exists_of_mem_scan (mem_onLine.mp honLine).1
  exact writable_of_mem_scanLine hline (unbroken_of_mem_pieces (List.getElem_mem hn))
    (herror t honLine) (by simpa using hspoken)

theorem scan_undoes_writing_returnedPosting :
    ((∀ t ∈ onLine 2 (scan returnedPosting), t.kind ≠ .lexError) ∧
      spoken (onLine 2 (scan returnedPosting)) ≠ [] ∧ '\n' ∉ "a\"b\\".toList) ∧
    (scan (String.ofList (writtenLine (spoken (onLine 2 (scan returnedPosting)))))).map content =
      (.indent, .none) :: (spoken (onLine 2 (scan returnedPosting))).map content ++
        [(.eol, .none)] ∧
    (scan (String.ofList (Lexeme.literal "a\"b\\".toList))).map content =
      [(.string, .text "a\"b\\"), (.eol, .none)] := by
  have herror : ∀ t ∈ onLine 2 (scan returnedPosting), t.kind ≠ .lexError := by decide +kernel
  have hspoken : spoken (onLine 2 (scan returnedPosting)) ≠ [] := by decide +kernel
  have hstring : '\n' ∉ "a\"b\\".toList := by decide
  exact ⟨⟨herror, hspoken, hstring⟩, scan_undoes_writing.1 _ 2 herror hspoken,
    scan_undoes_writing.2 _ hstring⟩

end Token

end PlainLedger
