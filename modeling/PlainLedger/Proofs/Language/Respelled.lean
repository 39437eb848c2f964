import PlainLedger.Proofs.Language.Reading

/-!
# Respelled texts

Comments and pipes stand for nothing, and in braces a slash stands for a comma. A text that can be
read can still be read when some of its comments and pipes are left out and some of its commas in
braces are written as slashes, and its reading is the same but for the rules that read them.
-/

namespace PlainLedger.Language

/-! ## Tokens -/

/-- Whether text stands in braces after a token of the kind. -/
def braced (b : Bool) : Terminal → Bool
  | .leftBrace => true
  | .rightBrace => false
  | _ => b

/-- The second text is the first one without some of its comments and without `n` of its pipes, and
with slashes in place of `k` of its commas in braces. -/
inductive Respelled : Bool → Nat → Nat → List Token → List Token → Prop where
  | nil (b : Bool) : Respelled b 0 0 [] []
  | keep {b : Bool} {n k : Nat} {ts us : List Token} (t : Token)
      (h : Respelled (braced b t.kind) n k ts us) : Respelled b n k (t :: ts) (t :: us)
  | comment {b : Bool} {n k : Nat} {t : Token} {ts us : List Token} (ht : t.kind = .comment)
      (h : Respelled b n k ts us) : Respelled b n k (t :: ts) us
  | pipe {b : Bool} {n k : Nat} {t : Token} {ts us : List Token} (ht : t.kind = .pipe)
      (h : Respelled b n k ts us) : Respelled b (n + 1) k (t :: ts) us
  | slash {n k : Nat} {t u : Token} {ts us : List Token} (ht : t.kind = .comma)
      (hu : u.kind = .slash) (hspan : u.span = t.span) (h : Respelled true n k ts us) :
      Respelled true n (k + 1) (t :: ts) (u :: us)

/-- Tokens of the kind stay as they are, in braces or not. -/
def Stays (b : Bool) (t : Terminal) : Prop :=
  t ≠ .comment ∧ t ≠ .pipe ∧ (b = true → t ≠ .comma)

instance (b : Bool) (t : Terminal) : Decidable (Stays b t) := by
  unfold Stays
  infer_instance

namespace Respelled

variable {b : Bool} {n k : Nat} {t : Token} {ts us : List Token}

/-- What may have become of the first token. -/
theorem cons_cases (h : Respelled b n k (t :: ts) us) :
    (∃ us', us = t :: us' ∧ Respelled (braced b t.kind) n k ts us') ∨
      (t.kind = .comment ∧ Respelled b n k ts us) ∨
      (t.kind = .pipe ∧ ∃ n', n = n' + 1 ∧ Respelled b n' k ts us) ∨
      (t.kind = .comma ∧ b = true ∧ ∃ u k' us', u.kind = .slash ∧ u.span = t.span ∧ k = k' + 1 ∧
        us = u :: us' ∧ Respelled true n k' ts us') := by
  cases h with
  | keep _ h => exact Or.inl ⟨_, rfl, h⟩
  | comment ht h => exact Or.inr (Or.inl ⟨ht, h⟩)
  | pipe ht h => exact Or.inr (Or.inr (Or.inl ⟨ht, _, rfl, h⟩))
  | slash ht hu hspan h =>
    exact Or.inr (Or.inr (Or.inr ⟨ht, rfl, _, _, _, hu, hspan, rfl, rfl, h⟩))

theorem of_stays (ht : Stays b t.kind) (h : Respelled b n k (t :: ts) us) :
    ∃ us', us = t :: us' ∧ Respelled (braced b t.kind) n k ts us' := by
  obtain ⟨hcomment, hpipe, hcomma⟩ := ht
  rcases h.cons_cases with h | ⟨hkind, -⟩ | ⟨hkind, -⟩ | ⟨hkind, hb, -⟩
  · exact h
  · exact (hcomment hkind).elim
  · exact (hpipe hkind).elim
  · exact (hcomma hb hkind).elim

end Respelled

/-! ## Readings one after the other -/

namespace Reading

variable {xs ys : List Symbol}

/-- The number of trees. -/
def size : {xs : List Symbol} → Reading xs → Nat
  | _, nil => 0
  | _, token _ _ rest => rest.size + 1
  | _, phrase _ _ _ children rest => children.size + rest.size + 1
  | _, expr _ _ rest => rest.size + 1

@[simp] theorem size_append (T : Reading xs) (T' : Reading ys) :
    (T.append T').size = T.size + T'.size := by
  induction T with
  | nil => simp [append, size]
  | token t h rest ih => simp only [append, size, ih, Nat.add_right_comm]
  | phrase k hrule hp children rest _ ih =>
    simp only [append, size, ih, Nat.add_assoc, Nat.add_comm 1]
  | expr e he rest ih => simp only [append, size, ih, Nat.add_right_comm]

theorem eq_nil (T : Reading []) : T = nil := by
  cases T
  rfl

theorem exists_token_of_terminal {u : Terminal} (T : Reading (.terminal u :: xs)) :
    ∃ (t : Token) (h : t.kind = u) (rest : Reading xs), T = token t h rest := by
  match T with
  | token t h rest => exact ⟨t, h, rest, rfl⟩

/-- A tree before a reading. -/
theorem append_append {x : Symbol} {zs : List Symbol} (T : Reading [x]) (T₁ : Reading ys)
    (T₂ : Reading zs) :
    (append T T₁ : Reading (x :: ys)).append T₂ = append T (T₁.append T₂) := by
  cases T with
  | token t h rest =>
    rw [rest.eq_nil]
    rfl
  | phrase k hrule hp children rest =>
    rw [rest.eq_nil]
    rfl
  | expr e he rest =>
    rw [rest.eq_nil]
    rfl

end Reading

/-! ## Rules that read what is respelled -/

/-- The end of a line, with a comment. -/
def commentedRule (c : Category) : Rule Production :=
  ⟨c.index, [.terminal .comment, .terminal .eol], .discard, none⟩

def uncommentedRule (c : Category) : Rule Production := ⟨c.index, [.terminal .eol], .discard, none⟩

def pipeRule : Rule Production :=
  ⟨Category.txnFields.index, [Category.txnFields.symbol, .terminal .pipe], .fieldPipe, none⟩

/-- The next clause of a lot, after a token that sets it apart. -/
def clauseRule (t : Terminal) (action : Production) : Rule Production :=
  ⟨Category.lotCompList.index, [Category.lotCompList.symbol, .terminal t,
    Category.lotComp.symbol], action, none⟩

theorem rules_slash : grammar.rules[90]? = some (clauseRule .slash .lotListSlash) := rfl

/-- The second reading is that of the text without some of the comments and without `n` of the
pipes, and with slashes in place of `k` of the commas in braces. -/
inductive Restyled : {xs : List Symbol} → Nat → Nat → Reading xs → Reading xs → Prop where
  | nil : Restyled 0 0 .nil .nil
  | token {n k : Nat} {u : Terminal} {xs : List Symbol} {rest rest' : Reading xs} (t : Token)
      (h : t.kind = u) (hrest : Restyled n k rest rest') :
      Restyled n k (.token t h rest) (.token t h rest')
  | expr {n k : Nat} {xs : List Symbol} {rest rest' : Reading xs} (e : Expr) (he : e.Parenthesized)
      (hrest : Restyled n k rest rest') : Restyled n k (.expr e he rest) (.expr e he rest')
  | phrase {n₁ k₁ n₂ k₂ m : Nat} {p : Rule Production} {hrule : grammar.rules[m]? = some p}
      {hp : p.lhs ≠ Category.numberExpr.index} {children children' : Reading p.rhs}
      {xs : List Symbol} {rest rest' : Reading xs} (hchildren : Restyled n₁ k₁ children children')
      (hrest : Restyled n₂ k₂ rest rest') :
      Restyled (n₁ + n₂) (k₁ + k₂) (.phrase m hrule hp children rest)
        (.phrase m hrule hp children' rest')
  | comment {n k m m' : Nat} {c : Category} {hrule : grammar.rules[m]? = some (commentedRule c)}
      {hrule' : grammar.rules[m']? = some (uncommentedRule c)}
      {hp : c.index ≠ Category.numberExpr.index} {t u : Token} (ht : t.kind = .comment)
      (hu : u.kind = .eol) {xs : List Symbol} {rest rest' : Reading xs}
      (hrest : Restyled n k rest rest') :
      Restyled n k (.phrase (p := commentedRule c) m hrule hp (.token t ht (.token u hu .nil)) rest)
        (.phrase (p := uncommentedRule c) m' hrule' hp (.token u hu .nil) rest')
  | pipe {n₁ k₁ n₂ k₂ m : Nat} {hrule : grammar.rules[m]? = some pipeRule}
      {hp : pipeRule.lhs ≠ Category.numberExpr.index}
      {fields fields' : Reading [Category.txnFields.symbol]} {t : Token} (ht : t.kind = .pipe)
      {xs : List Symbol} {rest rest' : Reading xs} (hfields : Restyled n₁ k₁ fields fields')
      (hrest : Restyled n₂ k₂ rest rest') :
      Restyled (n₁ + n₂ + 1) (k₁ + k₂)
        (.phrase m hrule hp (fields.append (.token t ht .nil)) rest) (fields'.append rest')
  | slash {n₁ k₁ n₂ k₂ n₃ k₃ m m' : Nat}
      {hrule : grammar.rules[m]? = some (clauseRule .comma .lotListComma)}
      {hrule' : grammar.rules[m']? = some (clauseRule .slash .lotListSlash)}
      {hp : Category.lotCompList.index ≠ Category.numberExpr.index}
      {clauses clauses' : Reading [Category.lotCompList.symbol]}
      {clause clause' : Reading [Category.lotComp.symbol]} {t u : Token} (ht : t.kind = .comma)
      (hu : u.kind = .slash) (hspan : u.span = t.span) {xs : List Symbol}
      {rest rest' : Reading xs} (hclauses : Restyled n₁ k₁ clauses clauses')
      (hclause : Restyled n₂ k₂ clause clause') (hrest : Restyled n₃ k₃ rest rest') :
      Restyled (n₁ + n₂ + n₃) (k₁ + k₂ + k₃ + 1)
        (.phrase (p := clauseRule .comma .lotListComma) m hrule hp
          (clauses.append (.token t ht clause)) rest)
        (.phrase (p := clauseRule .slash .lotListSlash) m' hrule' hp
          (clauses'.append (.token u hu clause')) rest')

namespace Restyled

variable {xs ys : List Symbol} {n k n' k' : Nat}

theorem counted {T T' : Reading xs} (h : Restyled n k T T') (hn : n = n') (hk : k = k') :
    Restyled n' k' T T' :=
  hn ▸ hk ▸ h

theorem append {T₁ T₁' : Reading xs} {T₂ T₂' : Reading ys} (h : Restyled n k T₁ T₁')
    (h' : Restyled n' k' T₂ T₂') :
    Restyled (n + n') (k + k') (T₁.append T₂) (T₁'.append T₂') := by
  induction h with
  | nil => rwa [Nat.zero_add, Nat.zero_add]
  | token t h _ ih => exact .token t h ih
  | expr e he _ ih => exact .expr e he ih
  | phrase hchildren _ _ ih =>
    exact (Restyled.phrase hchildren ih).counted (Nat.add_assoc ..).symm (Nat.add_assoc ..).symm
  | comment ht hu _ ih => exact .comment ht hu ih
  | @pipe _ _ _ _ _ _ _ fields fields' _ ht _ rest rest' hfields _ _ ih =>
    exact (congrArg (Restyled _ _ _) (fields'.append_append rest' T₂')).mpr
      ((Restyled.pipe ht hfields ih).counted (by omega) (by omega))
  | slash ht hu hspan hclauses hclause _ _ _ ih =>
    exact (Restyled.slash ht hu hspan hclauses hclause ih).counted (by omega) (by omega)

end Restyled

/-! ## Where things are respelled -/

/-- What stands in braces only. -/
def lotCategories : List Category := [.lotCompList, .lotComp, .compoundAmount, .maybeNumber]

/-- Whether the phrase may stand in braces, or outside of them. Expressions may stand in both. -/
def settles (b : Bool) (n : Nat) : Bool :=
  n == Category.numberExpr.index || (lotCategories.map Category.index).contains n == b

/-- Whether text stands in braces after the symbols, if they may stand there and none of the tokens
among them is one that is respelled. -/
def passes? (b : Bool) : List Symbol → Option Bool
  | [] => some b
  | .terminal t :: xs => if Stays b t then passes? (braced b t) xs else none
  | .nonterminal n :: xs => if settles b n then passes? b xs else none

/-- All that is respelled is read by a few rules. -/
theorem rule_of_settles {m : Nat} {p : Rule Production} (hrule : grammar.rules[m]? = some p)
    {b : Bool} (hb : settles b p.lhs = true) :
    passes? b p.rhs = some b ∨ (∃ (c : Category) (m' : Nat), p = commentedRule c ∧
        grammar.rules[m']? = some (uncommentedRule c) ∧ c.index ≠ Category.numberExpr.index) ∨
      p = pipeRule ∨ b = true ∧ p = clauseRule .comma .lotListComma := by
  have hall : ∀ q ∈ grammar.rules.zipIdx, ∀ b ∈ [false, true], settles b q.1.lhs = true →
      passes? b q.1.rhs = some b ∨ q.2 = 22 ∨ q.2 = 25 ∨ q.2 = 41 ∨ b = true ∧ q.2 = 89 := by
    decide +kernel
  have hb' : b ∈ [false, true] := by cases b <;> decide
  rcases hall (p, m) (List.mem_zipIdx_iff_getElem?.mpr hrule) b hb' hb with
    h | rfl | rfl | rfl | ⟨rfl, rfl⟩
  · exact Or.inl h
  · exact Or.inr (Or.inl ⟨.emptyLine, 21, (Option.some.inj hrule).symm, rfl, by decide⟩)
  · exact Or.inr (Or.inl ⟨.eol, 24, (Option.some.inj hrule).symm, rfl, by decide⟩)
  · exact Or.inr (Or.inr (Or.inl (Option.some.inj hrule).symm))
  · exact Or.inr (Or.inr (Or.inr ⟨rfl, (Option.some.inj hrule).symm⟩))

theorem stays_of_mem {t : Terminal} (b : Bool)
    (ht : t ∈ [.number, .plus, .minus, .asterisk, .slash, .leftParen, .rightParen]) :
    Stays b t ∧ braced b t = b := by
  have hall : ∀ b ∈ [false, true], ∀ t ∈ ([.number, .plus, .minus, .asterisk, .slash, .leftParen,
      .rightParen] : List Terminal), Stays b t ∧ braced b t = b := by decide
  exact hall b (by cases b <;> decide) t ht

/-- Nothing in an expression is respelled. -/
theorem Expr.stays (e : Expr) (b : Bool) :
    ∀ t ∈ e.tokens, Stays b t.kind ∧ braced b t.kind = b := by
  induction e with
  | number t h =>
    rw [tokens, List.forall_mem_singleton, h]
    exact stays_of_mem b (by decide)
  | binary op lhs t h rhs ihl ihr =>
    refine List.forall_mem_append.mpr ⟨ihl, List.forall_mem_cons.mpr ⟨?_, ihr⟩⟩
    rw [h]
    exact stays_of_mem b (by cases op <;> decide)
  | sign s t h operand ih =>
    refine List.forall_mem_cons.mpr ⟨?_, ih⟩
    rw [h]
    exact stays_of_mem b (by cases s <;> decide)
  | group opening ho inner closing hc ih =>
    refine List.forall_mem_append.mpr ⟨List.forall_mem_cons.mpr ⟨?_, ih⟩, ?_⟩
    · rw [ho]
      exact stays_of_mem b (by decide)
    · rw [List.forall_mem_singleton, hc]
      exact stays_of_mem b (by decide)

theorem Respelled.of_steady {b : Bool} {n k : Nat} {ts more us : List Token}
    (hts : ∀ t ∈ ts, Stays b t.kind ∧ braced b t.kind = b)
    (h : Respelled b n k (ts ++ more) us) : ∃ us', us = ts ++ us' ∧ Respelled b n k more us' := by
  induction ts generalizing us with
  | nil => exact ⟨us, rfl, h⟩
  | cons t ts ih =>
    obtain ⟨⟨hstays, hbraced⟩, hts⟩ := List.forall_mem_cons.mp hts
    obtain ⟨us, rfl, hrest⟩ := h.of_stays hstays
    rw [hbraced] at hrest
    obtain ⟨us, rfl, hmore⟩ := ih hts hrest
    exact ⟨us, rfl, hmore⟩

/-! ## Readings of respelled texts -/

/-- However a text that begins with the reading is respelled, the reading can be restyled for its
beginning, and what comes after it is respelled too. -/
def Restylable (b b' : Bool) {xs : List Symbol} (T : Reading xs) : Prop :=
  ∀ ⦃n k : Nat⦄ ⦃more us : List Token⦄, Respelled b n k (T.tokens ++ more) us →
    ∃ n₁ k₁ n₂ k₂ us', ∃ T' : Reading xs, n = n₁ + n₂ ∧ k = k₁ + k₂ ∧ us = T'.tokens ++ us' ∧
      Restyled n₁ k₁ T T' ∧ Respelled b' n₂ k₂ more us'

namespace Restylable

variable {b b' : Bool} {xs : List Symbol} {rest : Reading xs} {m : Nat}

theorem token {t : Token} {u : Terminal} (ht : t.kind = u) (hu : Stays b u)
    (hrest : Restylable (braced b u) b' rest) : Restylable b b' (.token t ht rest) := by
  subst ht
  intro n k more us h
  obtain ⟨us, rfl, hus⟩ := h.of_stays hu
  obtain ⟨n₁, k₁, n₂, k₂, us, T', hn, hk, rfl, hrestyled, hmore⟩ := hrest hus
  exact ⟨n₁, k₁, n₂, k₂, us, .token t rfl T', hn, hk, rfl, .token t rfl hrestyled, hmore⟩

theorem expr (e : Expr) (he : e.Parenthesized) (hrest : Restylable b b' rest) :
    Restylable b b' (.expr e he rest) := by
  intro n k more us h
  rw [Reading.tokens, List.append_assoc] at h
  obtain ⟨us, rfl, hus⟩ := h.of_steady (e.stays b)
  obtain ⟨n₁, k₁, n₂, k₂, us, T', hn, hk, rfl, hrestyled, hmore⟩ := hrest hus
  refine ⟨n₁, k₁, n₂, k₂, us, .expr e he T', hn, hk, ?_, .expr e he hrestyled, hmore⟩
  rw [Reading.tokens, List.append_assoc]

theorem phrase {p : Rule Production} {hrule : grammar.rules[m]? = some p}
    {hp : p.lhs ≠ Category.numberExpr.index} {children : Reading p.rhs}
    (hchildren : Restylable b b children) (hrest : Restylable b b' rest) :
    Restylable b b' (.phrase m hrule hp children rest) := by
  intro n k more us h
  rw [Reading.tokens, List.append_assoc] at h
  obtain ⟨n₁, k₁, n₂, k₂, us, children', rfl, rfl, rfl, hrestyled₁, hus⟩ := hchildren h
  obtain ⟨n₃, k₃, n₄, k₄, us, T', rfl, rfl, rfl, hrestyled₂, hmore⟩ := hrest hus
  refine ⟨n₁ + n₃, k₁ + k₃, n₄, k₄, us, .phrase m hrule hp children' T', (Nat.add_assoc ..).symm,
    (Nat.add_assoc ..).symm, ?_, .phrase hrestyled₁ hrestyled₂, hmore⟩
  rw [Reading.tokens, List.append_assoc]

theorem comment {m' : Nat} {c : Category} {hrule : grammar.rules[m]? = some (commentedRule c)}
    (hrule' : grammar.rules[m']? = some (uncommentedRule c))
    {hp : c.index ≠ Category.numberExpr.index} {t u : Token} (ht : t.kind = .comment)
    (hu : u.kind = .eol) (hrest : Restylable b b' rest) : Restylable b b' (.phrase
      (p := commentedRule c) m hrule hp (.token t ht (.token u hu .nil)) rest) := by
  intro n k more us h
  have heol : ∀ {n k us}, Respelled b n k (u :: (rest.tokens ++ more)) us →
      ∃ us', us = u :: us' ∧ Respelled b n k (rest.tokens ++ more) us' := by
    intro n k us hus
    obtain ⟨us', rfl, hus'⟩ := hus.of_stays (by rw [hu]; cases b <;> decide)
    rw [hu] at hus'
    exact ⟨us', rfl, hus'⟩
  rcases h.cons_cases with ⟨us, rfl, hus⟩ | ⟨-, hus⟩ | ⟨hkind, -⟩ | ⟨hkind, -⟩
  · rw [ht] at hus
    obtain ⟨us, rfl, hus'⟩ := heol hus
    obtain ⟨n₁, k₁, n₂, k₂, us, T', hn, hk, rfl, hrestyled, hmore⟩ := hrest hus'
    exact ⟨n₁, k₁, n₂, k₂, us, .phrase (p := commentedRule c) m hrule hp
      (.token t ht (.token u hu .nil)) T', hn, hk, rfl, (Restyled.phrase (.token t ht (.token u hu
        .nil)) hrestyled).counted (Nat.zero_add _) (Nat.zero_add _), hmore⟩
  · obtain ⟨us, rfl, hus'⟩ := heol hus
    obtain ⟨n₁, k₁, n₂, k₂, us, T', hn, hk, rfl, hrestyled, hmore⟩ := hrest hus'
    exact ⟨n₁, k₁, n₂, k₂, us, .phrase (p := uncommentedRule c) m' hrule' hp (.token u hu .nil) T',
      hn, hk, rfl, .comment ht hu hrestyled, hmore⟩
  · cases ht.symm.trans hkind
  · cases ht.symm.trans hkind

theorem pipe {hrule : grammar.rules[m]? = some pipeRule}
    {hp : pipeRule.lhs ≠ Category.numberExpr.index}
    {fields : Reading [Category.txnFields.symbol]} {t : Token} (ht : t.kind = .pipe)
    (hfields : Restylable b b fields) (hrest : Restylable b b' rest) :
    Restylable b b' (.phrase m hrule hp (fields.append (.token t ht .nil)) rest) := by
  intro n k more us h
  have htokens : ∀ (T : Reading [Category.txnFields.symbol]) (T' : Reading xs) (us : List Token),
      (Reading.phrase m hrule hp (T.append (.token t ht .nil)) T').tokens ++ us =
        T.tokens ++ t :: (T'.tokens ++ us) := by
    intro T T' us
    change ((T.append (.token t ht .nil)).tokens ++ T'.tokens) ++ us = _
    simp [Reading.tokens]
  rw [htokens] at h
  obtain ⟨n₁, k₁, n₂, k₂, us, fields', rfl, rfl, rfl, hrestyled₁, hmore₁⟩ := hfields h
  rcases hmore₁.cons_cases with ⟨us, rfl, hus⟩ | ⟨hkind, -⟩ | ⟨-, n₂, rfl, hus⟩ | ⟨hkind, -⟩
  · rw [ht] at hus
    obtain ⟨n₃, k₃, n₄, k₄, us, T', rfl, rfl, rfl, hrestyled₂, hmore⟩ := hrest hus
    exact ⟨n₁ + n₃, k₁ + k₃, n₄, k₄, us, .phrase m hrule hp (fields'.append (.token t ht .nil)) T',
      (Nat.add_assoc ..).symm, (Nat.add_assoc ..).symm, (htokens ..).symm,
      .phrase (hrestyled₁.append (.token t ht .nil)) hrestyled₂, hmore⟩
  · cases ht.symm.trans hkind
  · obtain ⟨n₃, k₃, n₄, k₄, us, T', rfl, rfl, rfl, hrestyled₂, hmore⟩ := hrest hus
    refine ⟨n₁ + n₃ + 1, k₁ + k₃, n₄, k₄, us, fields'.append T', by omega,
      (Nat.add_assoc ..).symm, ?_, .pipe ht hrestyled₁ hrestyled₂, hmore⟩
    exact (List.append_assoc ..).symm.trans
      (congrArg (· ++ us) (fields'.tokens_append T').symm)
  · cases ht.symm.trans hkind

theorem slash {m' : Nat} {hrule : grammar.rules[m]? = some (clauseRule .comma .lotListComma)}
    (hrule' : grammar.rules[m']? = some (clauseRule .slash .lotListSlash))
    {hp : Category.lotCompList.index ≠ Category.numberExpr.index}
    {clauses : Reading [Category.lotCompList.symbol]} {clause : Reading [Category.lotComp.symbol]}
    {t : Token} (ht : t.kind = .comma) (hclauses : Restylable true true clauses)
    (hclause : Restylable true true clause) (hrest : Restylable true b' rest) :
    Restylable true b' (.phrase (p := clauseRule .comma .lotListComma) m hrule hp
      (clauses.append (.token t ht clause)) rest) := by
  intro n k more us h
  have htokens : ∀ {u : Terminal} {a : Production} {m : Nat}
      (hrule : grammar.rules[m]? = some (clauseRule u a)) {t : Token} (ht : t.kind = u)
      (T : Reading [Category.lotCompList.symbol]) (T₁ : Reading [Category.lotComp.symbol])
      (T' : Reading xs) (us : List Token),
      (Reading.phrase (p := clauseRule u a) m hrule hp (T.append (.token t ht T₁)) T').tokens ++
        us = T.tokens ++ t :: (T₁.tokens ++ (T'.tokens ++ us)) := by
    intro u a m hrule t ht T T₁ T' us
    change ((T.append (.token t ht T₁)).tokens ++ T'.tokens) ++ us = _
    simp [Reading.tokens]
  rw [htokens] at h
  obtain ⟨n₁, k₁, n₂, k₂, us, clauses', rfl, rfl, rfl, hrestyled₁, hmore₁⟩ := hclauses h
  rcases hmore₁.cons_cases with ⟨us, rfl, hus⟩ | ⟨hkind, -⟩ | ⟨hkind, -⟩ |
    ⟨-, -, u, k₂, us, hu, hspan, rfl, rfl, hus⟩
  · rw [ht] at hus
    obtain ⟨n₃, k₃, n₄, k₄, us, clause', rfl, rfl, rfl, hrestyled₂, hmore₂⟩ := hclause hus
    obtain ⟨n₅, k₅, n₆, k₆, us, T', rfl, rfl, rfl, hrestyled₃, hmore⟩ := hrest hmore₂
    exact ⟨n₁ + n₃ + n₅, k₁ + k₃ + k₅, n₆, k₆, us, .phrase (p := clauseRule .comma .lotListComma) m
      hrule hp (clauses'.append (.token t ht clause')) T', by omega, by omega, (htokens ..).symm,
      .phrase (hrestyled₁.append (.token t ht hrestyled₂)) hrestyled₃, hmore⟩
  · cases ht.symm.trans hkind
  · cases ht.symm.trans hkind
  · obtain ⟨n₃, k₃, n₄, k₄, us, clause', rfl, rfl, rfl, hrestyled₂, hmore₂⟩ := hclause hus
    obtain ⟨n₅, k₅, n₆, k₆, us, T', rfl, rfl, rfl, hrestyled₃, hmore⟩ := hrest hmore₂
    exact ⟨n₁ + n₃ + n₅, k₁ + k₃ + k₅ + 1, n₆, k₆, us, .phrase
      (p := clauseRule .slash .lotListSlash) m' hrule' hp
      (clauses'.append (.token u hu clause')) T', by omega, by omega, (htokens ..).symm,
      .slash ht hu hspan hrestyled₁ hrestyled₂ hrestyled₃, hmore⟩

end Restylable

/-- Every reading can be restyled for a text that is respelled. -/
theorem restylable {xs : List Symbol} (T : Reading xs) {b b' : Bool}
    (hxs : passes? b xs = some b') :
    Restylable b b' T := by
  -- the parts of a right-hand side are restyled one by one, so the induction is on the size
  induction hsize : T.size using Nat.strong_induction_on generalizing xs T b b' with
  | _ size ih =>
  subst hsize
  cases T with
  | nil =>
    cases hxs
    intro n k more us h
    exact ⟨0, 0, n, k, us, .nil, (Nat.zero_add n).symm, (Nat.zero_add k).symm, rfl, .nil, h⟩
  | @token t u hu xs rest =>
    unfold passes? at hxs
    split at hxs
    · rename_i hstays
      exact Restylable.token hu hstays (ih rest.size (Nat.lt_succ_self _) rest hxs rfl)
    · cases hxs
  | @expr e he xs rest =>
    exact Restylable.expr e he (ih rest.size (Nat.lt_succ_self _) rest hxs rfl)
  | @phrase m p hrule hp children xs rest =>
    unfold passes? at hxs
    split at hxs
    swap
    · cases hxs
    rename_i hb
    have hsize :
      (Reading.phrase m hrule hp children rest).size = children.size + rest.size + 1 := rfl
    have hrest := ih rest.size (by omega) rest hxs rfl
    rcases rule_of_settles hrule hb with hpasses | ⟨c, m', rfl, hrule', -⟩ | rfl | ⟨rfl, rfl⟩
    · exact Restylable.phrase (ih children.size (by omega) children hpasses rfl) hrest
    · obtain ⟨t, ht, T₁, rfl⟩ := children.exists_token_of_terminal
      obtain ⟨u, hu, T₂, rfl⟩ := T₁.exists_token_of_terminal
      obtain rfl := T₂.eq_nil
      exact Restylable.comment hrule' ht hu hrest
    · obtain ⟨fields, T₁, hchildren⟩ := Reading.exists_append [Category.txnFields.symbol] children
      obtain ⟨t, ht, T₂, rfl⟩ := T₁.exists_token_of_terminal
      obtain rfl := T₂.eq_nil
      have hlt : children.size = fields.size + 1 :=
        (congrArg Reading.size hchildren).trans (fields.size_append _)
      subst hchildren
      exact Restylable.pipe ht (ih fields.size (by omega) fields (if_pos hb) rfl) hrest
    · obtain ⟨clauses, T₁, hchildren⟩ :=
        Reading.exists_append [Category.lotCompList.symbol] children
      obtain ⟨t, ht, clause, rfl⟩ := T₁.exists_token_of_terminal
      have hlt : children.size = clauses.size + (clause.size + 1) :=
        (congrArg Reading.size hchildren).trans (clauses.size_append _)
      subst hchildren
      exact Restylable.slash rules_slash ht
        (ih clauses.size (by omega) clauses (if_pos hb) rfl)
        (ih clause.size (by omega) clause rfl rfl) hrest

/-- A text that is respelled has a reading, which is a reading of the text restyled. -/
theorem exists_restyled (T : Reading [Category.file.symbol]) {n k : Nat} {us : List Token}
    (h : Respelled false n k T.tokens us) : ∃ T', T'.tokens = us ∧ Restyled n k T T' := by
  have hT : Restylable false false T := restylable T rfl
  rw [← List.append_nil T.tokens] at h
  obtain ⟨n₁, k₁, n₂, k₂, us, T', rfl, rfl, rfl, hrestyled, hmore⟩ := hT h
  cases hmore
  exact ⟨T', (List.append_nil _).symm, hrestyled⟩

end PlainLedger.Language
