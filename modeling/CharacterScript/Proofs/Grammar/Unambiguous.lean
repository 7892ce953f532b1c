import CharacterScript.Proofs.Grammar.Reading

/-!
# One phrase for each list of lexemes

Two whole phrases of one level that start the same lexemes are one phrase, and leave the same
(`Phrase.Whole.unique`). An expression of level `k` is taken apart into its first operand of level
`k + 1` and the links behind it: the first operands are equal by the next level, and then link after
link, because an operator of level `k` either comes next for both or for none. From the last level
on there are only operands, and the first lexemes of an operand tell which kind it is.

## What makes it true

There is no backtracking in the grammar: the next lexeme tells whether an expression goes on, and
what kind of operand starts. So two derivations can never part. The induction is on the number of
lexemes, since operands in parentheses are taken apart in the same way as the whole.
-/

namespace CharacterScript

/-! ## The kinds of operands -/

/-- The kinds of operands. -/
inductive OperandKind where
  | number | hex | name | target | paren | calculation | call | not

/-- The kind of operand that comes next. -/
def nextKind? : List Lexeme → Option OperandKind
  | ⟨.number _, _⟩ :: _ => some .number
  | ⟨.hex _, _⟩ :: _ => some .hex
  | ⟨.name _, _⟩ :: ⟨.punct .openParen, _⟩ :: _ => some .call
  | ⟨.keyword .collapse, _⟩ :: _ => some .call
  | ⟨.name _, _⟩ :: _ => some .name
  | ⟨.punct .at_, _⟩ :: _ => some .target
  | ⟨.punct .openParen, _⟩ :: _ => some .paren
  | ⟨.calcWord, _⟩ :: _ => some .calculation
  | ⟨.punct .bang, _⟩ :: _ => some .not
  | _ => none

def Phrase.kind? : Phrase → Option OperandKind
  | .number _ _ => some .number
  | .hex _ _ => some .hex
  | .name _ _ => some .name
  | .target _ _ _ => some .target
  | .paren _ _ _ => some .paren
  | .calculation _ _ _ _ => some .calculation
  | .call _ => some .call
  | .not _ _ => some .not
  | .binary _ _ _ _ => none

theorem CallHead.nextKind?_lexemes (head : CallHead) (rest : List Lexeme) :
    nextKind? (head.lexemes ++ rest) = some .call := by
  obtain ⟨collapse, name, nameSpan, opening⟩ := head
  cases collapse <;> rfl

/-- The first lexemes of an operand tell its kind. -/
theorem Phrase.Settled.nextKind?_eq {p : Phrase} {rest : List Lexeme}
    (hlevel : p.Leveled BinOp.levels) (h : p.Settled rest) :
    nextKind? (p.lexemes ++ rest) = p.kind? := by
  cases p with
  | name s span =>
    rw [Phrase.lexemes, List.singleton_append, nextKind?]
    · rfl
    · rintro opening more rfl
      exact h _ rfl rfl
  | call c =>
    cases c with
    | empty head closing | full head args closing =>
      rw [Phrase.lexemes, CallPhrase.lexemes, List.append_assoc]
      exact head.nextKind?_lexemes _
  | binary left op sign right =>
    rw [Phrase.Leveled] at hlevel
    exact absurd hlevel.1 op.level_lt_levels.not_ge
  | number | hex | target | paren | calculation | not => rfl

/-! ## Taking lexemes apart

From equal lexemes it is concluded that the parts are equal, from the front to the back: as soon
as two first parts are equal, what follows them is equal too. -/

theorem CallHead.eq_of_lexemes {head head' : CallHead} {r₁ r₂ : List Lexeme}
    (h : head.lexemes ++ r₁ = head'.lexemes ++ r₂) : head = head' ∧ r₁ = r₂ := by
  obtain ⟨collapse, name, nameSpan, opening⟩ := head
  obtain ⟨collapse', name', nameSpan', opening'⟩ := head'
  cases collapse with
  | none =>
    cases collapse' with
    | none =>
      cases h
      exact ⟨rfl, rfl⟩
    | some span' => cases h
  | some span =>
    cases collapse' with
    | none => cases h
    | some span' =>
      cases h
      exact ⟨rfl, rfl⟩

/-- What is proved of phrases of all sorts at once, up to a number of lexemes. -/
private structure Unique (n : Nat) : Prop where
  /-- Two phrases that start the same lexemes and are whole there are equal. -/
  phrase : ∀ {p q : Phrase} {k r₁ r₂}, p.lexemes.length ≤ n → p.Whole k r₁ → q.Whole k r₂ →
    p.lexemes ++ r₁ = q.lexemes ++ r₂ → p = q ∧ r₁ = r₂
  /-- So are two lists of arguments in front of a closing parenthesis. -/
  args : ∀ {p q : ArgsPhrase} {c₁ c₂ r₁ r₂}, p.lexemes.length ≤ n → p.Leveled → q.Leveled →
    p.Settled (Punct.closeParen.at c₁ :: r₁) → q.Settled (Punct.closeParen.at c₂ :: r₂) →
    p.lexemes ++ Punct.closeParen.at c₁ :: r₁ = q.lexemes ++ Punct.closeParen.at c₂ :: r₂ →
    p = q ∧ c₁ = c₂ ∧ r₁ = r₂

section

variable {n : Nat} (ih : Unique n)
include ih

private theorem call_unique {p q : CallPhrase} {r₁ r₂ : List Lexeme} (hn : p.lexemes.length ≤ n + 1)
    (hp : p.Leveled) (hq : q.Leveled) (hp' : p.Settled r₁) (hq' : q.Settled r₂)
    (h : p.lexemes ++ r₁ = q.lexemes ++ r₂) : p = q ∧ r₁ = r₂ := by
  cases p with
  | empty head closing =>
    cases q with
    | empty head' closing' =>
      simp only [CallPhrase.lexemes, List.append_assoc, List.singleton_append] at h
      obtain ⟨rfl, htail⟩ := CallHead.eq_of_lexemes h
      cases htail
      exact ⟨rfl, rfl⟩
    | full head' args closing' =>
      simp only [CallPhrase.lexemes, List.append_assoc, List.singleton_append] at h
      exact (args.lexemes_ne_closeParen (CallHead.eq_of_lexemes h).2.symm).elim
  | full head args closing =>
    cases q with
    | empty head' closing' =>
      simp only [CallPhrase.lexemes, List.append_assoc, List.singleton_append] at h
      exact (args.lexemes_ne_closeParen (CallHead.eq_of_lexemes h).2).elim
    | full head' args' closing' =>
      rw [CallPhrase.lexemes, List.length_append, List.length_append] at hn
      have := head.two_le_length
      simp only [CallPhrase.lexemes, List.append_assoc, List.singleton_append] at h
      obtain ⟨rfl, htail⟩ := CallHead.eq_of_lexemes h
      obtain ⟨rfl, rfl, rfl⟩ := ih.args (by omega) hp hq hp' hq' htail
      exact ⟨rfl, rfl⟩

private theorem inner_unique {p q : Phrase} {c₁ c₂ : Span} {r₁ r₂ : List Lexeme}
    (hn : p.lexemes.length ≤ n) (hp : p.Leveled 0) (hq : q.Leveled 0)
    (hp' : p.Settled (Punct.closeParen.at c₁ :: r₁))
    (hq' : q.Settled (Punct.closeParen.at c₂ :: r₂))
    (h : p.lexemes ++ [Punct.closeParen.at c₁] ++ r₁ =
    q.lexemes ++ [Punct.closeParen.at c₂] ++ r₂) :
    p = q ∧ c₁ = c₂ ∧ r₁ = r₂ := by
  rw [List.append_assoc, List.append_assoc] at h
  obtain ⟨rfl, hrest⟩ := ih.phrase hn ⟨hp, hp', stopsBelow_closeParen 0 c₁ r₁⟩
    ⟨hq, hq', stopsBelow_closeParen 0 c₂ r₂⟩ h
  cases hrest
  exact ⟨rfl, rfl, rfl⟩

private theorem operand_unique {p q : Phrase} {r₁ r₂ : List Lexeme} (hn : p.lexemes.length ≤ n + 1)
    (hp : p.Leveled BinOp.levels) (hq : q.Leveled BinOp.levels) (hp' : p.Settled r₁)
    (hq' : q.Settled r₂) (h : p.lexemes ++ r₁ = q.lexemes ++ r₂) : p = q ∧ r₁ = r₂ := by
  have hkind : p.kind? = q.kind? := by
    rw [← hp'.nextKind?_eq hp, ← hq'.nextKind?_eq hq, h]
  cases p <;> cases q <;> cases hkind
  case number | hex | name | target =>
    cases h
    exact ⟨rfl, rfl⟩
  case paren o p c o' q c' =>
    rw [Phrase.lexemes, List.length_cons, List.length_append] at hn
    rw [Phrase.lexemes, Phrase.lexemes, List.cons_append, List.cons_append, List.cons.injEq] at h
    obtain ⟨ho, h⟩ := h
    cases ho
    obtain ⟨rfl, rfl, rfl⟩ := inner_unique ih (by omega) hp hq hp' hq' h
    exact ⟨rfl, rfl⟩
  case calculation w o p c w' o' q c' =>
    rw [Phrase.lexemes, List.length_cons, List.length_cons, List.length_append] at hn
    rw [Phrase.lexemes, Phrase.lexemes, List.cons_append, List.cons_append, List.cons_append,
      List.cons_append, List.cons.injEq, List.cons.injEq] at h
    obtain ⟨hw, ho, h⟩ := h
    cases hw
    cases ho
    obtain ⟨rfl, rfl, rfl⟩ := inner_unique ih (by omega) hp hq hp' hq' h
    exact ⟨rfl, rfl⟩
  case call c c' =>
    obtain ⟨rfl, rfl⟩ := call_unique ih hn hp hq hp' hq' h
    exact ⟨rfl, rfl⟩
  case not s p s' q =>
    rw [Phrase.lexemes, List.length_cons] at hn
    rw [Phrase.lexemes, Phrase.lexemes, List.cons_append, List.cons_append, List.cons.injEq] at h
    obtain ⟨hs, h⟩ := h
    cases hs
    have hpWhole : p.Whole 0 r₁ := ⟨hp, hp'.2, hp'.1⟩
    have hqWhole : q.Whole 0 r₂ := ⟨hq, hq'.2, hq'.1⟩
    obtain ⟨rfl, rfl⟩ := ih.phrase (by omega) hpWhole hqWhole h
    exact ⟨rfl, rfl⟩
  case binary left op sign right _ _ _ _ =>
    rw [Phrase.Leveled] at hp
    exact absurd hp.1 op.level_lt_levels.not_ge

/-- Links behind equal first operands are equal, link after link. -/
private theorem links_unique {k : Nat} {r₁ r₂ : List Lexeme} (hr₁ : StopsBelow k r₁)
    (hr₂ : StopsBelow k r₂) : ∀ {ls ms : List Link},
    (ls.flatMap Link.lexemes).length ≤ n →
    (∀ l ∈ ls, l.op.level = k ∧ l.right.Leveled (k + 1)) →
    (∀ m ∈ ms, m.op.level = k ∧ m.right.Leveled (k + 1)) →
    LinksSettled ls r₁ → LinksSettled ms r₂ →
    ls.flatMap Link.lexemes ++ r₁ = ms.flatMap Link.lexemes ++ r₂ → ls = ms ∧ r₁ = r₂ := by
  -- an operator of level `k` cannot come next where the links are over
  have hover : ∀ {l : Link} {rest r : List Lexeme}, StopsBelow k r → l.op.level = k →
      r ≠ l.lexemes ++ rest := by
    rintro l rest r hr hl rfl
    have := hr l.op (nextOperator?_at _ _ _)
    omega
  intro ls
  induction ls with
  | nil =>
    intro ms _ _ hms _ _ h
    cases ms with
    | nil => exact ⟨rfl, h⟩
    | cons m ms =>
      rw [List.flatMap_cons, List.append_assoc] at h
      exact absurd h (hover hr₁ (hms m List.mem_cons_self).1)
  | cons l ls ihl =>
    intro ms hn hls hms hl hm h
    cases ms with
    | nil =>
      rw [List.flatMap_cons, List.append_assoc] at h
      exact absurd h.symm (hover hr₂ (hls l List.mem_cons_self).1)
    | cons m ms =>
      obtain ⟨⟨-, hright⟩, hls'⟩ := List.forall_mem_cons.1 hls
      obtain ⟨⟨-, hright'⟩, hms'⟩ := List.forall_mem_cons.1 hms
      rw [List.flatMap_cons, Link.lexemes, List.length_append, List.length_cons] at hn
      rw [List.flatMap_cons, List.flatMap_cons, Link.lexemes, Link.lexemes, List.append_assoc,
        List.append_assoc, List.cons_append, List.cons_append, List.cons.injEq] at h
      obtain ⟨hsign, h⟩ := h
      obtain ⟨lop, lsign, lright⟩ := l
      obtain ⟨mop, msign, mright⟩ := m
      rw [Punct.at, Punct.at, Lexeme.mk.injEq, Token.punct.injEq] at hsign
      obtain ⟨hop, rfl⟩ := hsign
      obtain rfl : lop = mop := BinOp.punct_injective hop
      obtain ⟨rfl, htail⟩ := ih.phrase (by omega) ⟨hright, hl.1, stopsBelow_links hls' hr₁⟩
        ⟨hright', hm.1, stopsBelow_links hms' hr₂⟩ h
      obtain ⟨rfl, hr⟩ := ihl (by omega) hls' hms' hl.2 hm.2 htail
      exact ⟨rfl, hr⟩

private theorem phrase_unique {p q : Phrase} {k : Nat} {r₁ r₂ : List Lexeme}
    (hn : p.lexemes.length ≤ n + 1) (hp : p.Whole k r₁) (hq : q.Whole k r₂)
    (h : p.lexemes ++ r₁ = q.lexemes ++ r₂) : p = q ∧ r₁ = r₂ := by
  obtain ⟨m, hm⟩ : ∃ m, m = BinOp.levels - k := ⟨_, rfl⟩
  induction m generalizing k p q r₁ r₂ with
  | zero =>
    have hk : BinOp.levels ≤ k := by omega
    exact operand_unique ih hn (hp.leveled.mono hk) (hq.leveled.mono hk) hp.settled hq.settled h
  | succ m ihm =>
    obtain ⟨first, links, rfl, hfirst, hlinks⟩ := hp.leveled.exists_extend
    obtain ⟨first', links', rfl, hfirst', hlinks'⟩ := hq.leveled.exists_extend
    obtain ⟨hsettled, hsettledLinks⟩ := Phrase.settled_extend.1 hp.settled
    obtain ⟨hsettled', hsettledLinks'⟩ := Phrase.settled_extend.1 hq.settled
    have := first.length_lexemes_pos
    rw [Phrase.lexemes_extend, List.length_append] at hn
    rw [Phrase.lexemes_extend, Phrase.lexemes_extend, List.append_assoc, List.append_assoc] at h
    obtain ⟨rfl, htail⟩ := ihm (by omega) ⟨hfirst, hsettled, stopsBelow_links hlinks hp.stops⟩
      ⟨hfirst', hsettled', stopsBelow_links hlinks' hq.stops⟩ h (by omega)
    obtain ⟨rfl, hr⟩ := links_unique ih hp.stops hq.stops (by omega) hlinks hlinks' hsettledLinks
      hsettledLinks' htail
    exact ⟨rfl, hr⟩

/-- Arguments are equal if no operator comes next behind either of them. -/
private theorem arg_unique {a b : ArgPhrase} {r₁ r₂ : List Lexeme}
    (hn : a.lexemes.length ≤ n + 1) (ha : a.Leveled) (hb : b.Leveled) (ha' : a.Settled r₁)
    (hb' : b.Settled r₂) (hr₁ : StopsBelow 0 r₁) (hr₂ : StopsBelow 0 r₂)
    (h : a.lexemes ++ r₁ = b.lexemes ++ r₂) : a = b ∧ r₁ = r₂ := by
  cases a with
  | expr p =>
    cases b with
    | expr q =>
      obtain ⟨rfl, hrest⟩ := phrase_unique ih hn ⟨ha, ha', hr₁⟩ ⟨hb, hb', hr₂⟩ h
      exact ⟨rfl, hrest⟩
    | text value span =>
      have hstart := p.startsExpr_lexemes r₁
      rw [ArgPhrase.lexemes] at h
      rw [h] at hstart
      cases hstart
  | text value span =>
    cases b with
    | expr q =>
      have hstart := q.startsExpr_lexemes r₂
      rw [ArgPhrase.lexemes, ArgPhrase.lexemes] at h
      rw [← h] at hstart
      cases hstart
    | text value' span' =>
      cases h
      exact ⟨rfl, rfl⟩

private theorem args_unique {p q : ArgsPhrase} {c₁ c₂ : Span} {r₁ r₂ : List Lexeme}
    (hn : p.lexemes.length ≤ n + 1) (hp : p.Leveled) (hq : q.Leveled)
    (hp' : p.Settled (Punct.closeParen.at c₁ :: r₁))
    (hq' : q.Settled (Punct.closeParen.at c₂ :: r₂))
    (h : p.lexemes ++ Punct.closeParen.at c₁ :: r₁ = q.lexemes ++ Punct.closeParen.at c₂ :: r₂) :
    p = q ∧ c₁ = c₂ ∧ r₁ = r₂ := by
  cases p with
  | last a =>
    cases q with
    | last b =>
      obtain ⟨rfl, hrest⟩ := arg_unique ih hn hp hq hp' hq' (stopsBelow_closeParen 0 c₁ r₁)
        (stopsBelow_closeParen 0 c₂ r₂) h
      cases hrest
      exact ⟨rfl, rfl, rfl⟩
    | more b comma q =>
      rw [ArgsPhrase.lexemes, ArgsPhrase.lexemes, List.append_assoc, List.cons_append] at h
      obtain ⟨-, hrest⟩ := arg_unique ih hn hp hq.1 hp' hq'.1 (stopsBelow_closeParen 0 c₁ r₁)
        (stopsBelow_comma 0 _ _) h
      cases hrest
  | more a comma p =>
    rw [ArgsPhrase.lexemes, List.length_append, List.length_cons] at hn
    cases q with
    | last b =>
      rw [ArgsPhrase.lexemes, ArgsPhrase.lexemes, List.append_assoc, List.cons_append] at h
      obtain ⟨-, hrest⟩ := arg_unique ih (by omega) hp.1 hq hp'.1 hq' (stopsBelow_comma 0 _ _)
        (stopsBelow_closeParen 0 c₂ r₂) h
      cases hrest
    | more b comma' q =>
      rw [ArgsPhrase.lexemes, ArgsPhrase.lexemes, List.append_assoc, List.append_assoc,
        List.cons_append, List.cons_append] at h
      obtain ⟨rfl, hrest⟩ := arg_unique ih (by omega) hp.1 hq.1 hp'.1 hq'.1 (stopsBelow_comma 0 _ _)
        (stopsBelow_comma 0 _ _) h
      rw [List.cons.injEq] at hrest
      obtain ⟨hsign, htail⟩ := hrest
      cases hsign
      obtain ⟨rfl, rfl, rfl⟩ := ih.args (by omega) hp.2 hq.2 hp'.2 hq'.2 htail
      exact ⟨rfl, rfl, rfl⟩

end

private theorem unique : ∀ n, Unique n
  | 0 => by
    refine ⟨fun {p} _ _ _ _ hn ↦ ?_, fun {p} _ _ _ _ _ hn ↦ ?_⟩
    · have := p.length_lexemes_pos
      omega
    · have := p.length_lexemes_pos
      omega
  | n + 1 => ⟨phrase_unique (unique n), args_unique (unique n)⟩

/-- Two whole phrases of one level in front of the same lexemes are one. -/
theorem Phrase.Whole.unique {p q : Phrase} {k : Nat} {r₁ r₂ : List Lexeme} (hp : p.Whole k r₁)
    (hq : q.Whole k r₂) (h : p.lexemes ++ r₁ = q.lexemes ++ r₂) : p = q ∧ r₁ = r₂ :=
  (CharacterScript.unique p.lexemes.length).phrase le_rfl hp hq h

end CharacterScript
