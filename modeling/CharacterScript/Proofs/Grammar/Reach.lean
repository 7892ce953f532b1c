import CharacterScript.Proofs.Grammar.Unambiguous

/-!
# How far the operand of `!` reaches

Levels alone do not say where the operand of a `!` ends: `! a + b` is an expression of level `0`
behind `!`, and also an operand with `+ b` behind it. The rule is that the operand takes all it can:
`Phrase.Longest` says that no longer list of the lexemes ahead is an expression, and `Phrase.Greedy`
that every operand of a `!` in a phrase is longest.

## Two descriptions

The reader never compares lists. It stops where no operator comes next, which is `Phrase.Settled`.
The two are the same for a phrase that stands alone (`Phrase.Leveled.greedy_iff`), and the reason is
`Phrase.attach`: an operator and an operand behind any expression can be taken into it, at the place
where the levels want them and inside the last `!` if there is one.

## What follows

With this, `parseExpression` accepts a list of lexemes exactly if the grammar has a phrase for it,
answers with the tree of that phrase, and there is no other phrase.
-/

namespace CharacterScript

open Running

/-! ## The rule

This is the grammar as a reader of the manual has it: an expression is the operand of a `!` if it
could not be longer. -/

/-- No longer list of lexemes is an expression. -/
def Phrase.Longest (p : Phrase) (rest : List Lexeme) : Prop :=
  ∀ (more rest' : List Lexeme), rest = more ++ rest' → more ≠ [] →
    ¬ ∃ q : Phrase, q.Leveled 0 ∧ q.lexemes = p.lexemes ++ more

mutual

/-- The operand of every `!` is as long as what comes next allows. -/
def Phrase.Greedy : Phrase → List Lexeme → Prop
  | .number _ _, _ | .hex _ _, _ | .name _ _, _ | .target _ _ _, _ => True
  | .paren _ inner closing, rest | .calculation _ _ inner closing, rest =>
    inner.Greedy (Punct.closeParen.at closing :: rest)
  | .call c, rest => c.Greedy rest
  | .not _ inner, rest => inner.Longest rest ∧ inner.Greedy rest
  | .binary left op sign right, rest =>
    left.Greedy (op.punct.at sign :: (right.lexemes ++ rest)) ∧ right.Greedy rest

def CallPhrase.Greedy : CallPhrase → List Lexeme → Prop
  | .empty _ _, _ => True
  | .full _ args closing, rest => args.Greedy (Punct.closeParen.at closing :: rest)

def ArgsPhrase.Greedy : ArgsPhrase → List Lexeme → Prop
  | .last arg, rest => arg.Greedy rest
  | .more arg comma more, rest =>
    arg.Greedy (Punct.comma.at comma :: (more.lexemes ++ rest)) ∧ more.Greedy rest

def ArgPhrase.Greedy : ArgPhrase → List Lexeme → Prop
  | .expr p, rest => p.Greedy rest
  | .text _ _, _ => True

end

/-! ## What comes next -/

/-- Nothing that could belong to an expression comes next. -/
structure Ended (rest : List Lexeme) : Prop where
  /-- A name at the end is not that of a call. -/
  noOpening : NoOpening rest
  /-- No operator goes on with it. -/
  stops : StopsBelow 0 rest

theorem ended_cons {t : Token} {span : Span} {rest : List Lexeme} (hopening : t ≠ .punct .openParen)
    (hstops : ∀ p, t = .punct p → BinOp.ofPunct? p = none) : Ended (⟨t, span⟩ :: rest) := by
  refine ⟨fun l hl ↦ ?_, fun op hop ↦ ?_⟩
  · cases hl
    exact hopening
  · rw [nextOperator?.eq_def] at hop
    split at hop
    next heq =>
      cases heq
      rw [hstops _ rfl] at hop
      cases hop
    · cases hop

theorem ended_closeParen (closing : Span) (rest : List Lexeme) :
    Ended (Punct.closeParen.at closing :: rest) :=
  ended_cons (by simp) (by rintro _ ⟨⟩; rfl)

theorem ended_comma (comma : Span) (rest : List Lexeme) : Ended (Punct.comma.at comma :: rest) :=
  ended_cons (by simp) (by rintro _ ⟨⟩; rfl)

theorem ended_eof (stop : Span) (rest : List Lexeme) : Ended (⟨.eof, stop⟩ :: rest) :=
  ended_cons (by simp) (by rintro _ ⟨⟩)

theorem StopsBelow.of_head {k : Nat} {l : Lexeme} {rest rest' : List Lexeme}
    (h : StopsBelow k (l :: rest)) : StopsBelow k (l :: rest') := by
  have hnext : nextOperator? (l :: rest') = nextOperator? (l :: rest) := by
    rw [nextOperator?.eq_def, nextOperator?.eq_def]
    obtain ⟨token, span⟩ := l
    cases token <;> rfl
  intro op hop
  exact h op (hnext ▸ hop)

mutual

/-- Whether a phrase is settled shows in the next lexeme. -/
theorem Phrase.Settled.of_head {l : Lexeme} {rest rest' : List Lexeme} :
    ∀ {p : Phrase}, p.Settled (l :: rest) → p.Settled (l :: rest')
  | .number _ _, _ | .hex _ _, _ | .target _ _ _, _ => trivial
  | .name _ _, h => fun _ hl ↦ h _ hl
  | .paren _ inner _, h | .calculation _ _ inner _, h => Phrase.Settled.of_head (p := inner) h
  | .call _, h => CallPhrase.Settled.of_head h
  | .not _ _, h => ⟨h.1.of_head, Phrase.Settled.of_head h.2⟩
  | .binary _ _ _ _, h => ⟨Phrase.Settled.of_head h.1, Phrase.Settled.of_head h.2⟩

theorem CallPhrase.Settled.of_head {l : Lexeme} {rest rest' : List Lexeme} :
    ∀ {c : CallPhrase}, c.Settled (l :: rest) → c.Settled (l :: rest')
  | .empty _ _, _ => trivial
  | .full _ _ _, h => ArgsPhrase.Settled.of_head h

theorem ArgsPhrase.Settled.of_head {l : Lexeme} {rest rest' : List Lexeme} :
    ∀ {args : ArgsPhrase}, args.Settled (l :: rest) → args.Settled (l :: rest')
  | .last _, h => ArgPhrase.Settled.of_head h
  | .more _ _ _, h => ⟨ArgPhrase.Settled.of_head h.1, ArgsPhrase.Settled.of_head h.2⟩

theorem ArgPhrase.Settled.of_head {l : Lexeme} {rest rest' : List Lexeme} :
    ∀ {arg : ArgPhrase}, arg.Settled (l :: rest) → arg.Settled (l :: rest')
  | .expr _, h => Phrase.Settled.of_head h
  | .text _ _, _ => trivial

end

/-! ## Taking in an operator and an operand

An operator behind an expression goes to the place where its level wants it: above all that binds
at least as tight, and below the rest. An operand of `!` at the end takes it in whatever its
level. -/

/-- Whether a phrase ends in the operand of a `!`. -/
def Phrase.isOpen : Phrase → Bool
  | .not _ _ => true
  | .binary _ _ _ right => right.isOpen
  | _ => false

/-- A phrase with a link taken in: inside the last `!` if the phrase ends in one, else where the
level of the operator wants it. -/
def Phrase.attach : Phrase → Link → Phrase
  | .not sign inner, l => .not sign (inner.attach l)
  | .binary left op sign right, l =>
    if op.level < l.op.level ∨ right.isOpen then .binary left op sign (right.attach l)
    else .binary (.binary left op sign right) l.op l.sign l.right
  | p, l => .binary p l.op l.sign l.right

theorem Phrase.lexemes_attach : ∀ (p : Phrase) (l : Link),
    (p.attach l).lexemes = p.lexemes ++ l.lexemes
  | .not sign inner, l => by
    rw [Phrase.attach, Phrase.lexemes, Phrase.lexemes, inner.lexemes_attach, List.cons_append]
  | .binary left op sign right, l => by
    rw [Phrase.attach]
    split
    · rw [Phrase.lexemes, Phrase.lexemes, right.lexemes_attach, List.append_assoc, List.cons_append]
    · rw [Phrase.lexemes, Link.lexemes]
  | .number _ _, _ | .hex _ _, _ | .name _ _, _ | .target _ _ _, _ | .paren _ _ _, _
  | .calculation _ _ _ _, _ | .call _, _ => rfl

/-- Taking in a link lowers the level to that of its operator at most, and not at all if the phrase
ends in a `!`. -/
theorem Phrase.Leveled.attach {l : Link} : ∀ {p : Phrase} {k : Nat}, p.Leveled k →
    l.right.Leveled (l.op.level + 1) → (k ≤ l.op.level ∨ p.isOpen = true) → (p.attach l).Leveled k
  | .not sign inner, k, h, hl, _ => by
    rw [Phrase.attach, Phrase.Leveled]
    exact Phrase.Leveled.attach (p := inner) h hl (.inl (Nat.zero_le _))
  | .binary left op sign right, k, h, hl, hk => by
    rw [Phrase.Leveled] at h
    rw [Phrase.attach]
    split
    next hin =>
      rw [Phrase.Leveled]
      exact ⟨h.1, h.2.1, h.2.2.attach hl hin⟩
    next hout =>
      rw [not_or, Bool.not_eq_true] at hout
      have hk' : k ≤ l.op.level := hk.resolve_right fun hopen ↦ by
        rw [Phrase.isOpen, hout.2] at hopen
        cases hopen
      rw [Phrase.Leveled, Phrase.Leveled]
      exact ⟨hk', ⟨not_lt.1 hout.1, h.2⟩, hl⟩
  | .number _ _, _, h, hl, hk | .hex _ _, _, h, hl, hk | .name _ _, _, h, hl, hk
  | .target _ _ _, _, h, hl, hk | .paren _ _ _, _, h, hl, hk | .calculation _ _ _ _, _, h, hl, hk
  | .call _, _, h, hl, hk => by
    have hk' := hk.resolve_right (by simp [Phrase.isOpen])
    exact ⟨hk', h, hl⟩

/-- Nothing behind a call can belong to it. -/
theorem CallPhrase.Settled.elsewhere {c : CallPhrase} {rest rest' : List Lexeme}
    (h : c.Settled rest) : c.Settled rest' := by
  cases c with
  | empty head closing => trivial
  | full head args closing => exact ArgsPhrase.Settled.of_head h

/-- A phrase is settled wherever nothing comes next that could belong to it. -/
def Phrase.Closed (p : Phrase) : Prop :=
  ∀ rest, Ended rest → p.Settled rest

theorem Phrase.Closed.settled {rest : List Lexeme} (hrest : NoOpening rest) :
    ∀ {p : Phrase}, p.Closed → p.isOpen = false → p.Settled rest
  | .number _ _, _, _ | .hex _ _, _, _ | .target _ _ _, _, _ => trivial
  | .name _ _, _, _ => hrest
  | .paren _ _ _, h, _ | .calculation _ _ _ _, h, _ =>
    Phrase.Settled.of_head (h _ (ended_eof ⟨0, 0⟩ []))
  | .call _, h, _ => (h _ (ended_eof ⟨0, 0⟩ [])).elsewhere
  | .not _ _, _, hopen => by cases hopen
  | .binary left op sign right, h, hopen =>
    ⟨(h _ (ended_eof ⟨0, 0⟩ [])).1.of_head,
      Phrase.Closed.settled hrest (p := right) (fun rest hrest ↦ (h rest hrest).2) hopen⟩

theorem Phrase.Closed.attach {l : Link} :
    ∀ {p : Phrase}, p.Closed → l.right.Closed → (p.attach l).Closed
  | .not _ inner, h, hl => fun rest hrest ↦
    ⟨hrest.stops,
      Phrase.Closed.attach (p := inner) (fun rest hrest ↦ (h rest hrest).2) hl rest hrest⟩
  | .binary left op sign right, h, hl => by
    have hright : right.Closed := fun rest hrest ↦ (h rest hrest).2
    intro rest hrest
    rw [Phrase.attach]
    split
    next hin => exact ⟨(h rest hrest).1.of_head, hright.attach hl rest hrest⟩
    next hout =>
      rw [not_or, Bool.not_eq_true] at hout
      exact ⟨h.settled (noOpening_operator _ _ _) hout.2, hl rest hrest⟩
  | .number _ _, h, hl | .hex _ _, h, hl | .name _ _, h, hl | .target _ _ _, h, hl
  | .paren _ _ _, h, hl | .calculation _ _ _ _, h, hl | .call _, h, hl => fun rest hrest ↦
    ⟨h.settled (noOpening_operator _ _ _) rfl, hl rest hrest⟩

/-! ## Every expression has a settled phrase -/

mutual

theorem Phrase.Leveled.exists_closed : ∀ {p : Phrase} {k : Nat}, p.Leveled k →
    ∃ q : Phrase, q.lexemes = p.lexemes ∧ q.Leveled k ∧ q.Closed
  | .number _ _, _, _ | .hex _ _, _, _ | .target _ _ _, _, _ =>
    ⟨_, rfl, trivial, fun _ _ ↦ trivial⟩
  | .name _ _, _, _ => ⟨_, rfl, trivial, fun _ hrest ↦ hrest.noOpening⟩
  | .paren opening inner closing, k, h => by
    obtain ⟨q, hlex, hlevel, hclosed⟩ := Phrase.Leveled.exists_closed (p := inner) h
    refine ⟨.paren opening q closing, ?_, hlevel, fun _ _ ↦ hclosed _ (ended_closeParen _ _)⟩
    rw [Phrase.lexemes, Phrase.lexemes, hlex]
  | .calculation word opening inner closing, k, h => by
    obtain ⟨q, hlex, hlevel, hclosed⟩ := Phrase.Leveled.exists_closed (p := inner) h
    refine ⟨.calculation word opening q closing, ?_, hlevel,
      fun _ _ ↦ hclosed _ (ended_closeParen _ _)⟩
    rw [Phrase.lexemes, Phrase.lexemes, hlex]
  | .call c, k, h => by
    obtain ⟨d, hlex, hlevel, hsettled⟩ := CallPhrase.Leveled.exists_closed (c := c) h
    exact ⟨.call d, hlex, hlevel, fun rest _ ↦ hsettled rest⟩
  | .not sign inner, k, h => by
    obtain ⟨q, hlex, hlevel, hclosed⟩ := Phrase.Leveled.exists_closed (p := inner) h
    refine ⟨.not sign q, ?_, hlevel, fun rest hrest ↦ ⟨hrest.stops, hclosed rest hrest⟩⟩
    rw [Phrase.lexemes, Phrase.lexemes, hlex]
  | .binary left op sign right, k, h => by
    rw [Phrase.Leveled] at h
    obtain ⟨l, hlex, hlevel, hclosed⟩ := Phrase.Leveled.exists_closed (p := left) h.2.1
    obtain ⟨r, hlex', hlevel', hclosed'⟩ := Phrase.Leveled.exists_closed (p := right) h.2.2
    -- the left operand may end in a `!`, which then takes in the operator
    refine ⟨l.attach ⟨op, sign, r⟩, ?_, ?_, hclosed.attach hclosed'⟩
    · rw [Phrase.lexemes_attach, Link.lexemes, hlex, hlex', Phrase.lexemes]
    · exact (hlevel.attach hlevel' (.inl le_rfl)).mono h.1

theorem CallPhrase.Leveled.exists_closed : ∀ {c : CallPhrase}, c.Leveled →
    ∃ d : CallPhrase, d.lexemes = c.lexemes ∧ d.Leveled ∧ ∀ rest, d.Settled rest
  | .empty head closing, _ => ⟨.empty head closing, rfl, trivial, fun _ ↦ trivial⟩
  | .full head args closing, h => by
    obtain ⟨as, hlex, hlevel, hsettled⟩ := ArgsPhrase.Leveled.exists_closed (a := args) h
    refine ⟨.full head as closing, ?_, hlevel, fun rest ↦ hsettled _ (ended_closeParen _ _)⟩
    rw [CallPhrase.lexemes, CallPhrase.lexemes, hlex]

theorem ArgsPhrase.Leveled.exists_closed : ∀ {a : ArgsPhrase}, a.Leveled →
    ∃ b : ArgsPhrase, b.lexemes = a.lexemes ∧ b.Leveled ∧ ∀ rest, Ended rest → b.Settled rest
  | .last arg, h => by
    obtain ⟨b, hlex, hlevel, hsettled⟩ := ArgPhrase.Leveled.exists_closed (a := arg) h
    exact ⟨.last b, hlex, hlevel, hsettled⟩
  | .more arg comma rest, h => by
    obtain ⟨b, hlex, hlevel, hsettled⟩ := ArgPhrase.Leveled.exists_closed (a := arg) h.1
    obtain ⟨c, hlex', hlevel', hsettled'⟩ := ArgsPhrase.Leveled.exists_closed (a := rest) h.2
    refine ⟨.more b comma c, ?_, ⟨hlevel, hlevel'⟩,
      fun rest hrest ↦ ⟨hsettled _ (ended_comma _ _), hsettled' rest hrest⟩⟩
    rw [ArgsPhrase.lexemes, ArgsPhrase.lexemes, hlex, hlex']

theorem ArgPhrase.Leveled.exists_closed : ∀ {a : ArgPhrase}, a.Leveled →
    ∃ b : ArgPhrase, b.lexemes = a.lexemes ∧ b.Leveled ∧ ∀ rest, Ended rest → b.Settled rest
  | .expr p, h => by
    obtain ⟨q, hlex, hlevel, hclosed⟩ := Phrase.Leveled.exists_closed (p := p) h
    exact ⟨.expr q, hlex, hlevel, hclosed⟩
  | .text value span, _ => ⟨.text value span, rfl, trivial, fun _ _ ↦ trivial⟩

end

/-! ## Longest and settled

A phrase that is settled is longest because a longer one would have an operator where there is
none. A longest phrase is settled because otherwise the operator that comes next, with its
operand, could be taken in. -/

/-- What can come next behind a part of an expression: no parenthesis, and an operator only with its
operand. -/
structure Continued (rest : List Lexeme) : Prop where
  /-- A name at the end is not that of a call. -/
  noOpening : NoOpening rest
  /-- Behind an operator stands an operand that binds tighter. -/
  operand : ∀ (op : BinOp) (sign : Span) (rest₁ : List Lexeme), rest = op.punct.at sign :: rest₁ →
    ∃ (right : Phrase) (rest₂ : List Lexeme), right.Leveled (op.level + 1) ∧
      rest₁ = right.lexemes ++ rest₂

theorem Ended.continued {rest : List Lexeme} (h : Ended rest) : Continued rest := by
  refine ⟨h.noOpening, ?_⟩
  rintro op sign rest₁ rfl
  exact absurd (h.stops op (nextOperator?_at _ _ _)) (Nat.not_lt_zero _)

theorem continued_operator {op : BinOp} {right : Phrase} (h : right.Leveled (op.level + 1))
    (sign : Span)
    (rest : List Lexeme) : Continued (op.punct.at sign :: (right.lexemes ++ rest)) := by
  refine ⟨noOpening_operator op sign _, fun op' sign' rest₁ heq ↦ ?_⟩
  rw [List.cons.injEq, Punct.at, Punct.at, Lexeme.mk.injEq, Token.punct.injEq] at heq
  obtain ⟨⟨hop, -⟩, rfl⟩ := heq
  obtain rfl : op = op' := BinOp.punct_injective hop
  exact ⟨right, rest, h, rfl⟩

theorem exists_of_nextOperator? {rest : List Lexeme} {op : BinOp}
    (h : nextOperator? rest = some op) :
    ∃ sign rest₁, rest = op.punct.at sign :: rest₁ := by
  rw [nextOperator?.eq_def] at h
  split at h
  next p sign rest₁ =>
    rw [BinOp.ofPunct?_eq_some] at h
    subst h
    exact ⟨sign, rest₁, rfl⟩
  · cases h

/-- Behind a longest expression no operator comes next: it could be taken in with its operand. -/
theorem Phrase.Longest.stops {p : Phrase} {rest : List Lexeme} (h : p.Longest rest)
    (hlevel : p.Leveled 0) (hrest : Continued rest) : StopsBelow 0 rest := by
  intro op hop
  obtain ⟨sign, rest₁, rfl⟩ := exists_of_nextOperator? hop
  obtain ⟨right, rest₂, hright, rfl⟩ := hrest.operand op sign rest₁ rfl
  refine absurd ⟨p.attach ⟨op, sign, right⟩, ?_, p.lexemes_attach _⟩
    (h (op.punct.at sign :: right.lexemes) rest₂ rfl (List.cons_ne_nil _ _))
  exact hlevel.attach hright (.inl (Nat.zero_le _))

/-- Where no operator comes next, an expression is longest: what is longer would have a phrase that
is settled in front of the same lexemes. -/
theorem Phrase.Whole.longest {p : Phrase} {rest : List Lexeme} (h : p.Whole 0 rest) :
    p.Longest rest := by
  rintro more rest' rfl hmore ⟨q, hq, hlex⟩
  obtain ⟨q', hlex', hlevel, hclosed⟩ := hq.exists_closed
  obtain ⟨l, more, rfl⟩ := List.exists_cons_of_ne_nil hmore
  have hend := ended_eof ⟨0, 0⟩ []
  have hp : p.Whole 0 (l :: more ++ [⟨.eof, ⟨0, 0⟩⟩]) :=
    ⟨h.leveled, h.settled.of_head, h.stops.of_head⟩
  have hq' : q'.Whole 0 [⟨.eof, ⟨0, 0⟩⟩] := ⟨hlevel, hclosed _ hend, hend.stops⟩
  obtain ⟨-, hrest⟩ := hp.unique hq' (by rw [hlex', hlex, List.append_assoc])
  simp at hrest

mutual

theorem Phrase.Greedy.settled : ∀ {p : Phrase} {k : Nat} {rest : List Lexeme}, p.Greedy rest →
    p.Leveled k → Continued rest → p.Settled rest
  | .number _ _, _, _, _, _, _ | .hex _ _, _, _, _, _, _ | .target _ _ _, _, _, _, _, _ => trivial
  | .name _ _, _, _, _, _, hrest => hrest.noOpening
  | .paren _ inner closing, _, rest, h, hlevel, _
  | .calculation _ _ inner closing, _, rest, h, hlevel, _ =>
    Phrase.Greedy.settled (p := inner) h hlevel (ended_closeParen closing rest).continued
  | .call c, _, _, h, hlevel, _ => CallPhrase.Greedy.settled (c := c) h hlevel
  | .not _ inner, _, _, h, hlevel, hrest =>
    ⟨h.1.stops hlevel hrest, Phrase.Greedy.settled (p := inner) h.2 hlevel hrest⟩
  | .binary left _ sign right, _, rest, h, hlevel, hrest =>
    ⟨Phrase.Greedy.settled (p := left) h.1 hlevel.2.1 (continued_operator hlevel.2.2 sign rest),
      Phrase.Greedy.settled (p := right) h.2 hlevel.2.2 hrest⟩

theorem CallPhrase.Greedy.settled : ∀ {c : CallPhrase} {rest : List Lexeme}, c.Greedy rest →
    c.Leveled → c.Settled rest
  | .empty _ _, _, _, _ => trivial
  | .full _ args closing, rest, h, hlevel =>
    ArgsPhrase.Greedy.settled (a := args) h hlevel (ended_closeParen closing rest)

theorem ArgsPhrase.Greedy.settled : ∀ {a : ArgsPhrase} {rest : List Lexeme}, a.Greedy rest →
    a.Leveled → Ended rest → a.Settled rest
  | .last arg, _, h, hlevel, hrest => ArgPhrase.Greedy.settled (a := arg) h hlevel hrest
  | .more arg comma more, _, h, hlevel, hrest =>
    ⟨ArgPhrase.Greedy.settled (a := arg) h.1 hlevel.1 (ended_comma comma _),
      ArgsPhrase.Greedy.settled (a := more) h.2 hlevel.2 hrest⟩

theorem ArgPhrase.Greedy.settled : ∀ {a : ArgPhrase} {rest : List Lexeme}, a.Greedy rest →
    a.Leveled → Ended rest → a.Settled rest
  | .expr p, _, h, hlevel, hrest => Phrase.Greedy.settled (p := p) h hlevel hrest.continued
  | .text _ _, _, _, _, _ => trivial

end

mutual

theorem Phrase.Settled.greedy : ∀ {p : Phrase} {k : Nat} {rest : List Lexeme}, p.Settled rest →
    p.Leveled k → p.Greedy rest
  | .number _ _, _, _, _, _ | .hex _ _, _, _, _, _ | .name _ _, _, _, _, _
  | .target _ _ _, _, _, _, _ => trivial
  | .paren _ inner _, _, _, h, hlevel | .calculation _ _ inner _, _, _, h, hlevel =>
    Phrase.Settled.greedy (p := inner) h hlevel
  | .call c, _, _, h, hlevel => CallPhrase.Settled.greedy (c := c) h hlevel
  | .not _ inner, _, rest, h, hlevel =>
    have hwhole : inner.Whole 0 rest := ⟨hlevel, h.2, h.1⟩
    ⟨hwhole.longest, Phrase.Settled.greedy (p := inner) h.2 hlevel⟩
  | .binary left _ _ right, _, _, h, hlevel =>
    ⟨Phrase.Settled.greedy (p := left) h.1 hlevel.2.1,
      Phrase.Settled.greedy (p := right) h.2 hlevel.2.2⟩

theorem CallPhrase.Settled.greedy : ∀ {c : CallPhrase} {rest : List Lexeme}, c.Settled rest →
    c.Leveled → c.Greedy rest
  | .empty _ _, _, _, _ => trivial
  | .full _ args _, _, h, hlevel => ArgsPhrase.Settled.greedy (a := args) h hlevel

theorem ArgsPhrase.Settled.greedy : ∀ {a : ArgsPhrase} {rest : List Lexeme}, a.Settled rest →
    a.Leveled → a.Greedy rest
  | .last arg, _, h, hlevel => ArgPhrase.Settled.greedy (a := arg) h hlevel
  | .more arg _ more, _, h, hlevel =>
    ⟨ArgPhrase.Settled.greedy (a := arg) h.1 hlevel.1,
      ArgsPhrase.Settled.greedy (a := more) h.2 hlevel.2⟩

theorem ArgPhrase.Settled.greedy : ∀ {a : ArgPhrase} {rest : List Lexeme}, a.Settled rest →
    a.Leveled → a.Greedy rest
  | .expr p, _, h, hlevel => Phrase.Settled.greedy (p := p) h hlevel
  | .text _ _, _, _, _ => trivial

end

/-- For an expression that nothing can belong to behind it, to be greedy is to be all that is
read. -/
theorem Phrase.Leveled.greedy_iff {p : Phrase} {rest : List Lexeme} (h : p.Leveled 0)
    (hrest : Ended rest) : p.Greedy rest ↔ p.Whole 0 rest :=
  ⟨fun hgreedy ↦ ⟨h, hgreedy.settled h hrest.continued, hrest.stops⟩,
    fun hwhole ↦ hwhole.settled.greedy h⟩

/-! ## Derivations -/

/-- The phrase derives the lexemes in front of the end mark at `stop`: it is an expression of the
lowest level, and the operand of every `!` in it reaches as far right as it can. -/
structure Phrase.Derives (p : Phrase) (body : List Lexeme) (stop : Span) : Prop where
  /-- It is made of these lexemes. -/
  lexemes : p.lexemes = body
  /-- Operands bind tighter than their operators, and chains lean to the left. -/
  leveled : p.Leveled 0
  /-- Each `!` takes all it can. -/
  greedy : p.Greedy [⟨.eof, stop⟩]

theorem Phrase.derives_iff {p : Phrase} {body : List Lexeme} {stop : Span} :
    p.Derives body stop ↔ p.lexemes = body ∧ p.Whole 0 [⟨.eof, stop⟩] := by
  constructor
  · rintro ⟨hlex, hlevel, hgreedy⟩
    exact ⟨hlex, (hlevel.greedy_iff (ended_eof stop [])).1 hgreedy⟩
  · rintro ⟨hlex, hwhole⟩
    exact ⟨hlex, hwhole.leveled, (hwhole.leveled.greedy_iff (ended_eof stop [])).2 hwhole⟩

/-- Lexemes are accepted as an expression exactly if the grammar derives them; the answer is the
tree of the derivation, and there is no other derivation. -/
theorem parseExpression_eq_ok_iff_derives {source : String} {body : List Lexeme} {stop : Span}
    (hbody : ∀ l ∈ body, l.token ≠ .eof) :
    (∀ e, parseExpression source (body ++ [⟨.eof, stop⟩]) = .ok e ↔
      ∃ p : Phrase, p.Derives body stop ∧ p.tree source = e) ∧
    ∀ p q : Phrase, p.Derives body stop → q.Derives body stop → p = q := by
  refine ⟨fun e ↦ ⟨fun h ↦ ?_, ?_⟩, fun p q hp hq ↦ ?_⟩
  · obtain ⟨⟨e', rest⟩, hexpr, h⟩ := exceptBind_eq_ok.1 h
    obtain ⟨p, hts, rfl, hwhole⟩ := Parser.exists_phrase_of_expr hexpr
    dsimp only at h
    split at h
    next stop' rest =>
      cases h
      obtain ⟨hlex, hrest⟩ := eq_of_append_eof hbody p.noEof hts
      exact ⟨p, Phrase.derives_iff.2 ⟨hlex.symm, hrest ▸ hwhole⟩, rfl⟩
    · rw [List.append_nil] at hts
      exact (hts ▸ p.noEof) _ List.mem_concat_self rfl |>.elim
    · exact absurd h Parser.fail_ne_ok
  · rintro ⟨p, hp, rfl⟩
    obtain ⟨rfl, hwhole⟩ := Phrase.derives_iff.1 hp
    have hfuel : 2 * p.lexemes.length ≤ Parser.steps (p.lexemes ++ [⟨.eof, stop⟩]) := by
      rw [Parser.steps, List.length_append]
      omega
    rw [parseExpression, Parser.expr_of_whole hwhole hfuel]
    rfl
  · obtain ⟨hlex, hp⟩ := Phrase.derives_iff.1 hp
    obtain ⟨hlex', hq⟩ := Phrase.derives_iff.1 hq
    exact (hp.unique hq (by rw [hlex, hlex'])).1

namespace Sample

/-- The lexemes of `a * ! b + c`. -/
def productOfNot : List Lexeme :=
  [⟨.name "a", ⟨0, 1⟩⟩, Punct.star.at ⟨2, 3⟩, Punct.bang.at ⟨4, 5⟩, ⟨.name "b", ⟨5, 6⟩⟩,
    Punct.plus.at ⟨7, 8⟩, ⟨.name "c", ⟨9, 10⟩⟩]

end Sample

/-- In `a * ! b + c` the sum belongs to the operand of `!`, and there is no other way to read it. -/
theorem productOfNot_derives :
    (∀ l ∈ Sample.productOfNot, l.token ≠ .eof) ∧
    (∃ p : Phrase, p.Derives Sample.productOfNot ⟨10, 10⟩ ∧
      p.tree "a * !b + c" = .binary .mul (.name "a" false ⟨0, 1⟩)
        (.not (.binary .add (.name "b" false ⟨5, 6⟩) (.name "c" false ⟨9, 10⟩) ⟨5, 10⟩) ⟨4, 10⟩)
        ⟨0, 10⟩) ∧
    ∀ p q : Phrase, p.Derives Sample.productOfNot ⟨10, 10⟩ →
      q.Derives Sample.productOfNot ⟨10, 10⟩ → p = q := by
  have hbody : ∀ l ∈ Sample.productOfNot, l.token ≠ .eof := by
    simp [Sample.productOfNot, Punct.at]
  obtain ⟨haccepts, hunique⟩ := @parseExpression_eq_ok_iff_derives "a * !b + c" _ ⟨10, 10⟩ hbody
  exact ⟨hbody, (haccepts _).1 rfl, hunique⟩

end CharacterScript
