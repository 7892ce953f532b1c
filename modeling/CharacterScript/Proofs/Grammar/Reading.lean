import CharacterScript.Proofs.Grammar.Phrases

/-!
# The reader of expressions reads phrases

Whatever `Parser.expr` accepts is a phrase in front of what it leaves, of the level that was asked
for and settled there (`Parser.exists_phrase_of_expr`); and in front of anything that leaves it
settled, a phrase is what the reader accepts (`Parser.expr_of_whole`).

## Inwards and outwards

The reader goes from an operand outwards, level by level, while a phrase that associates to the left
is built the other way round. Both meet in `Phrase.extend`: an expression of level `k` is one of
level `k + 1` with a list of links, each an operator of level `k` and an operand of level `k + 1`.

## One bound, five readers

The readers call each other, and the number of steps goes down with each call. So what is said of
them is said of all five at once for one number (`ReadsPhrases`, `TakesPhrases`) and proved by
induction on it. In one direction the number does not matter: what was read was read. In the other
it has to be large enough, and twice the number of lexemes is.
-/

namespace CharacterScript

open Running

/-! ## Whole phrases -/

/-- The phrase is all that can be read as an expression of level `k` in front of `rest`. -/
structure Phrase.Whole (p : Phrase) (k : Nat) (rest : List Lexeme) : Prop where
  /-- It can be read at level `k`. -/
  leveled : p.Leveled k
  /-- What comes behind it, and behind each `!` in it, is not read as part of it. -/
  settled : p.Settled rest
  /-- No operator of this level or a tighter one comes next. -/
  stops : StopsBelow k rest

/-! ## What a phrase starts with

Phrases are not empty, and their first lexeme tells the reader that an expression starts. These
are used wherever a reader looks at one lexeme before it decides. -/

theorem CallHead.two_le_length (head : CallHead) : 2 ≤ head.lexemes.length := by
  rw [CallHead.lexemes, List.length_append]
  exact Nat.le_add_left 2 _

theorem CallHead.startsExpr_lexemes (head : CallHead) (rest : List Lexeme) :
    Parser.startsExpr (head.lexemes ++ rest) = true := by
  obtain ⟨collapse, name, nameSpan, opening⟩ := head
  cases collapse <;> rfl

theorem CallPhrase.two_lt_length (c : CallPhrase) : 2 < c.lexemes.length := by
  cases c with
  | empty head closing | full head args closing =>
    have := head.two_le_length
    simp only [CallPhrase.lexemes, List.length_append, List.length_singleton]
    omega

theorem CallPhrase.startsExpr_lexemes (c : CallPhrase) (rest : List Lexeme) :
    Parser.startsExpr (c.lexemes ++ rest) = true := by
  cases c with
  | empty head closing | full head args closing =>
    rw [CallPhrase.lexemes, List.append_assoc]
    exact head.startsExpr_lexemes _

theorem Phrase.startsExpr_lexemes : ∀ (p : Phrase) (rest : List Lexeme),
    Parser.startsExpr (p.lexemes ++ rest) = true
  | .number _ _, _ | .hex _ _, _ | .name _ _, _ | .target _ _ _, _ | .paren _ _ _, _
  | .calculation _ _ _ _, _ | .not _ _, _ => by
    rw [Phrase.lexemes]
    rfl
  | .call c, rest => by
    rw [Phrase.lexemes]
    exact c.startsExpr_lexemes rest
  | .binary left op sign right, rest => by
    rw [Phrase.lexemes, List.append_assoc]
    exact left.startsExpr_lexemes _

theorem Phrase.length_lexemes_pos (p : Phrase) : 0 < p.lexemes.length := by
  refine List.length_pos_iff.2 fun hnil ↦ ?_
  have hstart := p.startsExpr_lexemes []
  rw [hnil] at hstart
  cases hstart

theorem ArgPhrase.length_lexemes_pos (arg : ArgPhrase) : 0 < arg.lexemes.length := by
  cases arg with
  | expr p => exact p.length_lexemes_pos
  | text value span => exact Nat.zero_lt_one

theorem ArgsPhrase.length_lexemes_pos (args : ArgsPhrase) : 0 < args.lexemes.length := by
  cases args with
  | last arg => exact arg.length_lexemes_pos
  | more arg comma rest =>
    rw [ArgsPhrase.lexemes, List.length_append]
    exact Nat.add_pos_left arg.length_lexemes_pos _

theorem ArgsPhrase.lexemes_ne_closeParen (p : ArgsPhrase) {closing : Span} {ts rest : List Lexeme}
    (h : p.lexemes ++ ts = ⟨.punct .closeParen, closing⟩ :: rest) : False := by
  have key : ∀ (arg : ArgPhrase) (ts : List Lexeme),
      arg.lexemes ++ ts = ⟨.punct .closeParen, closing⟩ :: rest → False := by
    intro arg ts h
    cases arg with
    | text value span => cases h
    | expr e =>
      have hstart := e.startsExpr_lexemes ts
      rw [ArgPhrase.lexemes] at h
      rw [h] at hstart
      cases hstart
  cases p with
  | last arg => exact key arg ts h
  | more arg comma more =>
    rw [ArgsPhrase.lexemes, List.append_assoc] at h
    exact key arg _ h

theorem stopsBelow_closeParen (k : Nat) (closing : Span) (rest : List Lexeme) :
    StopsBelow k (Punct.closeParen.at closing :: rest) := by
  intro op hop
  cases hop

theorem stopsBelow_comma (k : Nat) (comma : Span) (rest : List Lexeme) :
    StopsBelow k (Punct.comma.at comma :: rest) := by
  intro op hop
  cases hop

/-! ## Links

Taking an expression apart gives its first operand and the list of what follows it on its level.
This is the order in which the reader meets them. -/

/-- An operator and its right operand. -/
structure Link where
  /-- The operator. -/
  op : BinOp
  /-- Where the operator stands. -/
  sign : Span
  /-- Its right operand. -/
  right : Phrase

def Link.lexemes (l : Link) : List Lexeme :=
  l.op.punct.at l.sign :: l.right.lexemes

/-- A phrase with links behind it, joined from the left. -/
def Phrase.extend (p : Phrase) : List Link → Phrase
  | [] => p
  | l :: links => (Phrase.binary p l.op l.sign l.right).extend links

theorem Phrase.extend_append (p : Phrase) (links more : List Link) :
    p.extend (links ++ more) = (p.extend links).extend more := by
  induction links generalizing p with
  | nil => rfl
  | cons l links ih => exact ih _

theorem Phrase.lexemes_extend (p : Phrase) (links : List Link) :
    (p.extend links).lexemes = p.lexemes ++ links.flatMap Link.lexemes := by
  induction links generalizing p with
  | nil => rw [Phrase.extend, List.flatMap_nil, List.append_nil]
  | cons l links ih =>
    rw [Phrase.extend, ih, Phrase.lexemes, List.flatMap_cons, Link.lexemes, List.append_assoc]

/-- The links are settled one before the other. -/
def LinksSettled : List Link → List Lexeme → Prop
  | [], _ => True
  | l :: links, rest =>
    l.right.Settled (links.flatMap Link.lexemes ++ rest) ∧ LinksSettled links rest

theorem Phrase.settled_extend {p : Phrase} {links : List Link} {rest : List Lexeme} :
    (p.extend links).Settled rest ↔
      p.Settled (links.flatMap Link.lexemes ++ rest) ∧ LinksSettled links rest := by
  induction links generalizing p with
  | nil => simp [Phrase.extend, LinksSettled]
  | cons l links ih =>
    rw [Phrase.extend, ih, Phrase.Settled, LinksSettled, List.flatMap_cons, Link.lexemes,
      List.cons_append, List.cons_append, List.append_assoc, and_assoc]

/-- An expression of level `k` is one of level `k + 1` with links of level `k`. -/
theorem Phrase.Leveled.exists_extend {k : Nat} : ∀ {p : Phrase}, p.Leveled k →
    ∃ (first : Phrase) (links : List Link), p = first.extend links ∧ first.Leveled (k + 1) ∧
      ∀ l ∈ links, l.op.level = k ∧ l.right.Leveled (k + 1)
  | .binary left op sign right, h => by
    rw [Phrase.Leveled] at h
    obtain ⟨hle, hleft, hright⟩ := h
    rcases hle.eq_or_lt with rfl | hlt
    · obtain ⟨first, links, rfl, hfirst, hlinks⟩ := hleft.exists_extend
      refine ⟨first, links ++ [⟨op, sign, right⟩], ?_, hfirst, ?_⟩
      · rw [Phrase.extend_append]
        rfl
      · intro l hl
        rcases List.mem_append.1 hl with hl | hl
        · exact hlinks l hl
        · cases List.mem_singleton.1 hl
          exact ⟨rfl, hright⟩
    · refine ⟨_, [], rfl, ?_, List.forall_mem_nil _⟩
      rw [Phrase.Leveled]
      exact ⟨hlt, hleft, hright⟩
  | .number _ _, h | .hex _ _, h | .name _ _, h | .target _ _ _, h | .paren _ _ _, h
  | .calculation _ _ _ _, h | .call _, h | .not _ _, h =>
    ⟨_, [], rfl, by rwa [Phrase.Leveled] at h ⊢, List.forall_mem_nil _⟩

/-- Behind the first operand of level `k + 1` there is no operator of a level above `k`. -/
theorem stopsBelow_links {k : Nat} {links : List Link} {rest : List Lexeme}
    (hlinks : ∀ l ∈ links, l.op.level = k ∧ l.right.Leveled (k + 1)) (hrest : StopsBelow k rest) :
    StopsBelow (k + 1) (links.flatMap Link.lexemes ++ rest) := by
  cases links with
  | nil => exact hrest.mono (Nat.le_succ k)
  | cons l links =>
    intro op hop
    rw [List.flatMap_cons, Link.lexemes, List.cons_append, List.cons_append,
      nextOperator?_at] at hop
    cases hop
    exact Nat.lt_succ_of_le (hlinks l List.mem_cons_self).1.le

namespace Parser

variable {source : String}

/-! ## Marks and operators -/

@[simp] theorem mark_at (p : Punct) (span : Span) (rest : List Lexeme) :
    mark p (p.at span :: rest) = .ok (span, rest) :=
  mark_eq_ok.2 rfl

theorem operator?_eq_some {k : Nat} {ts ts' : List Lexeme} {op : BinOp} :
    operator? k ts = some (op, ts') ↔ ∃ sign, ts = op.punct.at sign :: ts' ∧ op.level = k := by
  constructor
  · intro h
    rw [operator?.eq_def] at h
    split at h
    next p sign ts =>
      split at h
      next op' hop =>
        split at h
        next hlevel =>
          cases h
          rw [BinOp.ofPunct?_eq_some] at hop
          subst hop
          exact ⟨sign, rfl, hlevel⟩
        · cases h
      · cases h
    · cases h
  · rintro ⟨sign, rfl, rfl⟩
    rw [Punct.at, operator?, BinOp.ofPunct?_eq_some.2 rfl]
    exact if_pos rfl

theorem operator?_eq_none {k : Nat} {ts : List Lexeme} :
    operator? k ts = none ↔ ∀ op, nextOperator? ts = some op → op.level ≠ k := by
  rw [operator?.eq_def]
  split
  next p sign ts =>
    rw [nextOperator?]
    cases BinOp.ofPunct? p <;> simp
  next hpunct =>
    rw [nextOperator?]
    · simp
    · exact hpunct

/-! ## What is read is a phrase

The level is the one invariant of the loop over levels: with a phrase of level `k + 1` in hand,
what continues it on level `k` gives a phrase of level `k`. -/

/-- The lexemes start with a phrase for `e` that is all an expression of level `k` can take of
them. -/
def Phrased (source : String) (k : Nat) (ts : List Lexeme) (e : Expr) (rest : List Lexeme) : Prop :=
  ∃ p : Phrase, ts = p.lexemes ++ rest ∧ p.tree source = e ∧ p.Whole k rest

/-- A phrase of level `k` in front of `ts`, where nothing of a higher level comes next, grows into a
whole one. -/
def Continues (source : String)
    (next : Nat → Expr → List Lexeme → Except SyntaxError (Read Expr)) : Prop :=
  ∀ {k : Nat} {ts : List Lexeme} {p : Phrase} {e : Expr} {rest : List Lexeme},
    p.Leveled k → p.Settled ts → StopsBelow (k + 1) ts →
    next k (p.tree source) ts = .ok (e, rest) → Phrased source k (p.lexemes ++ ts) e rest

theorem phrased_of_climb {next : Nat → Expr → List Lexeme → Except SyntaxError (Read Expr)}
    (hnext : Continues source next) (k : Nat) : ∀ {n : Nat} {ts : List Lexeme} {p : Phrase}
      {e : Expr} {rest : List Lexeme}, p.Whole (k + n) ts →
      climb next k n (p.tree source) ts = .ok (e, rest) →
      Phrased source k (p.lexemes ++ ts) e rest := by
  intro n
  induction n with
  | zero =>
    intro ts p e rest hp h
    rw [climb] at h
    cases h
    exact ⟨p, rfl, rfl, hp⟩
  | succ n ih =>
    intro ts p e rest hp h
    rw [climb] at h
    obtain ⟨⟨left, ts₁⟩, hone, hrest⟩ := exceptBind_eq_ok.1 h
    obtain ⟨q, hq, rfl, hwhole⟩ :=
      hnext (hp.leveled.mono (Nat.le_succ _)) hp.settled hp.stops hone
    rw [hq]
    exact ih hwhole hrest

/-- What is proved of all readers of expressions at once, for one bound on their steps. -/
private structure ReadsPhrases (source : String) (fuel : Nat) : Prop where
  /-- An expression from any level on. -/
  expr : ∀ {k ts e rest}, expr source fuel k ts = .ok (e, rest) → Phrased source k ts e rest
  /-- Operators of one level, behind a first operand. -/
  chain : Continues source (chain source fuel)
  /-- An operand, which is one at every level. -/
  atom : ∀ {ts e rest}, atom source fuel ts = .ok (e, rest) →
    ∃ p : Phrase, ts = p.lexemes ++ rest ∧ p.tree source = e ∧ (∀ k, p.Leveled k) ∧ p.Settled rest
  /-- A call. -/
  call : ∀ {ts c rest}, call source fuel ts = .ok (c, rest) →
    ∃ p : CallPhrase, ts = p.lexemes ++ rest ∧ p.tree source = c ∧ p.Leveled ∧ p.Settled rest
  /-- Arguments, behind those already read. -/
  args : ∀ {done ts as rest}, args source fuel done ts = .ok (as, rest) →
    ∃ p : ArgsPhrase, ts = p.lexemes ++ rest ∧ done.reverse ++ p.trees source = as ∧ p.Leveled ∧
      p.Settled rest

section

variable {fuel : Nat} (ih : ReadsPhrases source fuel)
include ih

private theorem expr_readsPhrases {k : Nat} {ts : List Lexeme} {e : Expr} {rest : List Lexeme}
    (h : expr source (fuel + 1) k ts = .ok (e, rest)) : Phrased source k ts e rest := by
  rw [expr] at h
  obtain ⟨⟨left, ts₁⟩, hatom, hclimb⟩ := exceptBind_eq_ok.1 h
  obtain ⟨p, rfl, rfl, hlevel, hsettled⟩ := ih.atom hatom
  have hwhole : p.Whole (k + (BinOp.levels - k)) ts₁ :=
    ⟨hlevel _, hsettled, (stopsBelow_levels ts₁).mono (by omega)⟩
  exact phrased_of_climb ih.chain k hwhole hclimb

private theorem chain_continues : Continues source (chain source (fuel + 1)) := by
  intro k ts p e rest hlevel hsettled hstops h
  rw [chain] at h
  split at h
  next hnone =>
    cases h
    refine ⟨p, rfl, rfl, hlevel, hsettled, fun op hop ↦ ?_⟩
    have := hstops op hop
    have := operator?_eq_none.1 hnone op hop
    omega
  next op ts₁ hop =>
    obtain ⟨sign, rfl, rfl⟩ := operator?_eq_some.1 hop
    obtain ⟨⟨right, ts₂⟩, hright, hchain⟩ := exceptBind_eq_ok.1 h
    obtain ⟨q, rfl, rfl, hq⟩ := ih.expr hright
    -- the two operands become the left operand of what follows
    have hboth : (Phrase.binary p op sign q).Leveled op.level := by
      rw [Phrase.Leveled]
      exact ⟨le_rfl, hlevel, hq.leveled⟩
    have hboth' : (Phrase.binary p op sign q).Settled ts₂ := by
      rw [Phrase.Settled]
      exact ⟨hsettled, hq.settled⟩
    obtain ⟨r, hr, hread⟩ := ih.chain hboth hboth' hq.stops hchain
    refine ⟨r, ?_, hread⟩
    rw [← hr, Phrase.lexemes, List.append_assoc, List.cons_append]

private theorem atom_readsPhrases {ts : List Lexeme} {e : Expr} {rest : List Lexeme}
    (h : atom source (fuel + 1) ts = .ok (e, rest)) :
    ∃ p : Phrase, ts = p.lexemes ++ rest ∧ p.tree source = e ∧ (∀ k, p.Leveled k) ∧
      p.Settled rest := by
  rw [atom.eq_def] at h
  dsimp only at h
  split at h
  next sign ts =>
    obtain ⟨⟨inner, ts₁⟩, hinner, h⟩ := exceptBind_eq_ok.1 h
    cases h
    obtain ⟨p, rfl, rfl, hp⟩ := ih.expr hinner
    exact ⟨.not sign p, rfl, rfl, fun _ ↦ hp.leveled, hp.stops, hp.settled⟩
  next opening ts =>
    obtain ⟨⟨inner, ts₁⟩, hinner, h⟩ := exceptBind_eq_ok.1 h
    obtain ⟨⟨closing, ts₂⟩, hclosing, h⟩ := exceptBind_eq_ok.1 h
    cases h
    obtain ⟨p, rfl, rfl, hp⟩ := ih.expr hinner
    rw [mark_eq_ok] at hclosing
    subst hclosing
    refine ⟨.paren opening p closing, ?_, rfl, fun _ ↦ hp.leveled, hp.settled⟩
    simp [Phrase.lexemes, Punct.at]
  next value span ts =>
    cases h
    exact ⟨.hex value span, rfl, rfl, fun _ ↦ trivial, trivial⟩
  next value span ts =>
    cases h
    exact ⟨.number value span, rfl, rfl, fun _ ↦ trivial, trivial⟩
  next word ts =>
    obtain ⟨⟨opening, ts₁⟩, hopening, h⟩ := exceptBind_eq_ok.1 h
    obtain ⟨⟨inner, ts₂⟩, hinner, h⟩ := exceptBind_eq_ok.1 h
    obtain ⟨⟨closing, ts₃⟩, hclosing, h⟩ := exceptBind_eq_ok.1 h
    cases h
    rw [mark_eq_ok] at hopening hclosing
    subst hopening
    obtain ⟨p, rfl, rfl, hp⟩ := ih.expr hinner
    subst hclosing
    refine ⟨.calculation word opening p closing, ?_, rfl, fun _ ↦ hp.leveled, hp.settled⟩
    simp [Phrase.lexemes, Punct.at]
  next span ts =>
    obtain ⟨⟨c, ts₁⟩, hcall, h⟩ := exceptBind_eq_ok.1 h
    cases h
    obtain ⟨p, hp, rfl, hlevel, hsettled⟩ := ih.call hcall
    exact ⟨.call p, hp, rfl, fun _ ↦ hlevel, hsettled⟩
  next s span opening ts =>
    obtain ⟨⟨c, ts₁⟩, hcall, h⟩ := exceptBind_eq_ok.1 h
    cases h
    obtain ⟨p, hp, rfl, hlevel, hsettled⟩ := ih.call hcall
    exact ⟨.call p, hp, rfl, fun _ ↦ hlevel, hsettled⟩
  next s span ts hopening =>
    cases h
    refine ⟨.name s span, rfl, rfl, fun _ ↦ trivial, ?_⟩
    rintro ⟨token, opening⟩ hhead rfl
    obtain ⟨more, rfl⟩ := List.head?_eq_some_iff.1 hhead
    exact hopening opening more rfl
  next sign ts =>
    obtain ⟨⟨⟨s, span⟩, ts₁⟩, hname, h⟩ := exceptBind_eq_ok.1 h
    cases h
    rw [name_eq_ok] at hname
    subst hname
    exact ⟨.target sign s span, rfl, rfl, fun _ ↦ trivial, trivial⟩
  · exact absurd h fail_ne_ok

/-- What is read behind an argument: more of them after a comma, or nothing. -/
def afterArg (source : String) (fuel : Nat) (done : List Arg) :
    List Lexeme → Except SyntaxError (Read (List Arg))
  | ⟨.punct .comma, _⟩ :: ts => args source fuel done ts
  | ts => .ok (done.reverse, ts)

private theorem args_readsPhrases {done : List Arg} {ts : List Lexeme} {as : List Arg}
    {rest : List Lexeme} (h : args source (fuel + 1) done ts = .ok (as, rest)) :
    ∃ p : ArgsPhrase, ts = p.lexemes ++ rest ∧ done.reverse ++ p.trees source = as ∧ p.Leveled ∧
      p.Settled rest := by
  -- an argument, and then a comma with more of them or the end of the list
  have htail : ∀ (arg : ArgPhrase) {ts : List Lexeme}, arg.Leveled → arg.Settled ts →
      afterArg source fuel (arg.tree source :: done) ts = .ok (as, rest) →
      ∃ p : ArgsPhrase, arg.lexemes ++ ts = p.lexemes ++ rest ∧
        done.reverse ++ p.trees source = as ∧ p.Leveled ∧ p.Settled rest := by
    intro arg ts hlevel hsettled h
    rw [afterArg.eq_def] at h
    split at h
    next comma ts =>
      obtain ⟨p, rfl, rfl, hlevel', hsettled'⟩ := ih.args h
      refine ⟨.more arg comma p, ?_, ?_, ⟨hlevel, hlevel'⟩, hsettled, hsettled'⟩
      · rw [ArgsPhrase.lexemes, List.append_assoc, List.cons_append, Punct.at]
      · rw [ArgsPhrase.trees, List.reverse_cons, List.append_assoc, List.singleton_append]
    · cases h
      refine ⟨.last arg, rfl, ?_, hlevel, hsettled⟩
      rw [ArgsPhrase.trees, List.reverse_cons]
  rw [args.eq_def] at h
  dsimp only at h
  split at h
  next value span ts =>
    obtain ⟨p, hp, hread⟩ := htail (.text value span) trivial trivial h
    exact ⟨p, hp, hread⟩
  next ts _ =>
    obtain ⟨⟨e, ts₁⟩, he, h⟩ := exceptBind_eq_ok.1 h
    obtain ⟨p, rfl, rfl, hp⟩ := ih.expr he
    obtain ⟨q, hq, hread⟩ := htail (.expr p) hp.leveled hp.settled h
    exact ⟨q, hq, hread⟩

omit ih in
/-- An optional `collapse`, a name and a parenthesis are the start of a call. -/
theorem exists_callHead {ts rest : List Lexeme} {s : String} {nameSpan opening : Span}
    (h : (afterCollapse ts).2 = ⟨.name s, nameSpan⟩ :: ⟨.punct .openParen, opening⟩ :: rest) :
    ∃ head : CallHead, ts = head.lexemes ++ rest ∧ head.name = s ∧ head.nameSpan = nameSpan ∧
      head.collapse.isSome = (afterCollapse ts).1 ∧ head.start = here ts := by
  rw [afterCollapse.eq_def] at h ⊢
  split at h
  next span ts =>
    dsimp only at h
    subst h
    exact ⟨⟨some span, s, nameSpan, opening⟩, rfl, rfl, rfl, rfl, rfl⟩
  next ts hcollapse =>
    dsimp only at h
    subst h
    exact ⟨⟨none, s, nameSpan, opening⟩, rfl, rfl, rfl, rfl, rfl⟩

private theorem call_readsPhrases {ts : List Lexeme} {c : Call} {rest : List Lexeme}
    (h : call source (fuel + 1) ts = .ok (c, rest)) :
    ∃ p : CallPhrase, ts = p.lexemes ++ rest ∧ p.tree source = c ∧ p.Leveled ∧ p.Settled rest := by
  rw [call_succ] at h
  obtain ⟨⟨⟨s, nameSpan⟩, ts₁⟩, hname, h₁⟩ := exceptBind_eq_ok.1 h
  obtain ⟨⟨opening, ts₂⟩, hopening, h₂⟩ := exceptBind_eq_ok.1 h₁
  rw [name_eq_ok] at hname
  rw [mark_eq_ok] at hopening
  subst hopening
  obtain ⟨head, hts, rfl, rfl, hcollapse, hstart⟩ := exists_callHead hname
  rw [← hcollapse, ← hstart] at h₂
  dsimp only at h₂
  split at h₂
  next closing ts =>
    obtain ⟨⟨as, ts₃⟩, has, h₃⟩ := exceptBind_eq_ok.1 h₂
    obtain ⟨⟨closing', ts₄⟩, hclosing, h₄⟩ := exceptBind_eq_ok.1 h₃
    rw [mark_eq_ok] at hclosing
    cases has
    cases hclosing
    cases h₄
    refine ⟨.empty head closing, ?_, rfl, trivial, trivial⟩
    rw [hts, CallPhrase.lexemes, List.append_assoc]
    rfl
  · obtain ⟨⟨as, ts₃⟩, hargs, h₃⟩ := exceptBind_eq_ok.1 h₂
    obtain ⟨⟨closing, ts₄⟩, hclosing, h₄⟩ := exceptBind_eq_ok.1 h₃
    rw [mark_eq_ok] at hclosing
    cases h₄
    obtain ⟨p, rfl, rfl, hlevel, hsettled⟩ := ih.args hargs
    subst hclosing
    refine ⟨.full head p closing, ?_, ?_, hlevel, hsettled⟩
    · rw [hts, CallPhrase.lexemes]
      simp [Punct.at]
    · rw [CallPhrase.tree]
      rfl

end

private theorem readsPhrases (source : String) : ∀ fuel, ReadsPhrases source fuel
  | 0 =>
    { expr := fun h ↦ absurd (by rwa [expr] at h) fail_ne_ok
      chain := fun _ _ _ h ↦ absurd (by rwa [chain] at h) fail_ne_ok
      atom := fun h ↦ absurd (by rwa [atom] at h) fail_ne_ok
      call := fun h ↦ absurd (by rwa [call] at h) fail_ne_ok
      args := fun h ↦ absurd (by rwa [args] at h) fail_ne_ok }
  | fuel + 1 =>
    have ih := readsPhrases source fuel
    ⟨expr_readsPhrases ih, chain_continues ih, atom_readsPhrases ih, call_readsPhrases ih,
      args_readsPhrases ih⟩

/-- An expression that was read is a phrase, and all that could be read. -/
theorem exists_phrase_of_expr {fuel k : Nat} {ts : List Lexeme} {e : Expr} {rest : List Lexeme}
    (h : expr source fuel k ts = .ok (e, rest)) :
    ∃ p : Phrase, ts = p.lexemes ++ rest ∧ p.tree source = e ∧ p.Whole k rest :=
  (readsPhrases source fuel).expr h

/-- A call that was read is a phrase. -/
theorem exists_phrase_of_call {fuel : Nat} {ts : List Lexeme} {c : Call} {rest : List Lexeme}
    (h : call source fuel ts = .ok (c, rest)) :
    ∃ p : CallPhrase, ts = p.lexemes ++ rest ∧ p.tree source = c ∧ p.Leveled ∧ p.Settled rest :=
  (readsPhrases source fuel).call h

/-! ## A phrase is read -/

/-- Continuing through one more level comes last. -/
theorem climb_succ (next : Nat → Expr → List Lexeme → Except SyntaxError (Read Expr)) (k n : Nat)
    (left : Expr) (ts : List Lexeme) :
    climb next k (n + 1) left ts = climb next (k + 1) n left ts >>= fun r ↦ next k r.1 r.2 := by
  induction n generalizing left ts with
  | zero =>
    have hone : climb next k 1 left ts = next k left ts >>= fun r ↦ .ok (r.1, r.2) := rfl
    rw [hone]
    exact bind_pure _
  | succ n ih =>
    have hlevel : k + (n + 1) = k + 1 + n := by omega
    rw [climb, climb, bind_assoc, hlevel]
    exact congrArg _ (funext fun r ↦ ih r.1 r.2)

/-- An expression of level `k` is one of level `k + 1`, continued at level `k`. -/
theorem expr_succ {fuel k : Nat} {ts : List Lexeme} (hk : k < BinOp.levels) :
    expr source (fuel + 1) k ts =
      expr source (fuel + 1) (k + 1) ts >>= fun r ↦ chain source fuel k r.1 r.2 := by
  have hlevels : BinOp.levels - k = BinOp.levels - (k + 1) + 1 := by omega
  rw [expr, expr, bind_assoc, hlevels]
  exact congrArg _ (funext fun r ↦ climb_succ _ _ _ _ _)

/-- What is proved of all readers of expressions at once, for one bound on their steps. -/
private structure TakesPhrases (source : String) (fuel : Nat) : Prop where
  /-- An expression from any level on. -/
  expr : ∀ {p : Phrase} {k rest}, p.Whole k rest → 2 * p.lexemes.length ≤ fuel →
    expr source fuel k (p.lexemes ++ rest) = .ok (p.tree source, rest)
  /-- Operators of one level, behind a first operand. -/
  chain : ∀ {p : Phrase} {links k rest}, LinksSettled links rest →
    (∀ l ∈ links, l.op.level = k ∧ l.right.Leveled (k + 1)) → StopsBelow k rest →
    2 * (links.flatMap Link.lexemes).length + 1 ≤ fuel →
    chain source fuel k (p.tree source) (links.flatMap Link.lexemes ++ rest) =
      .ok ((p.extend links).tree source, rest)
  /-- An operand. -/
  atom : ∀ {p : Phrase} {rest}, p.Leveled BinOp.levels → p.Settled rest →
    2 * p.lexemes.length ≤ fuel + 1 →
    atom source fuel (p.lexemes ++ rest) = .ok (p.tree source, rest)
  /-- A call. -/
  call : ∀ {p : CallPhrase} {rest}, p.Leveled → p.Settled rest →
    2 * p.lexemes.length ≤ fuel + 2 →
    call source fuel (p.lexemes ++ rest) = .ok (p.tree source, rest)
  /-- Arguments up to the closing parenthesis, behind those already read. -/
  args : ∀ {p : ArgsPhrase} {done closing rest}, p.Leveled →
    p.Settled (Punct.closeParen.at closing :: rest) → 2 * p.lexemes.length + 1 ≤ fuel →
    args source fuel done (p.lexemes ++ Punct.closeParen.at closing :: rest) =
      .ok (done.reverse ++ p.trees source, Punct.closeParen.at closing :: rest)

section

variable {fuel : Nat} (ih : TakesPhrases source fuel)
include ih

private theorem expr_takesPhrases {p : Phrase} {k : Nat} {rest : List Lexeme} (h : p.Whole k rest)
    (hfuel : 2 * p.lexemes.length ≤ fuel + 1) :
    expr source (fuel + 1) k (p.lexemes ++ rest) = .ok (p.tree source, rest) := by
  -- the levels from the tightest one outwards
  obtain ⟨n, hn⟩ : ∃ n, n = BinOp.levels - k := ⟨_, rfl⟩
  induction n generalizing k p rest with
  | zero =>
    rw [expr, ih.atom (h.leveled.mono (by omega)) h.settled hfuel, ← hn]
    rfl
  | succ n ihn =>
    obtain ⟨first, links, rfl, hfirst, hlinks⟩ := h.leveled.exists_extend
    obtain ⟨hsettled, hlinks'⟩ := Phrase.settled_extend.1 h.settled
    have hwhole : first.Whole (k + 1) (links.flatMap Link.lexemes ++ rest) :=
      ⟨hfirst, hsettled, stopsBelow_links hlinks h.stops⟩
    have hpos := first.length_lexemes_pos
    rw [Phrase.lexemes_extend, List.length_append] at hfuel
    rw [expr_succ (by omega), Phrase.lexemes_extend, List.append_assoc,
      ihn hwhole (by omega) (by omega)]
    exact ih.chain hlinks' hlinks h.stops (by omega)

private theorem chain_takesPhrases {p : Phrase} {links : List Link} {k : Nat} {rest : List Lexeme}
    (hsettled : LinksSettled links rest)
    (hlinks : ∀ l ∈ links, l.op.level = k ∧ l.right.Leveled (k + 1)) (hstops : StopsBelow k rest)
    (hfuel : 2 * (links.flatMap Link.lexemes).length + 1 ≤ fuel + 1) :
    chain source (fuel + 1) k (p.tree source) (links.flatMap Link.lexemes ++ rest) =
      .ok ((p.extend links).tree source, rest) := by
  cases links with
  | nil =>
    have hnone : operator? k rest = none := operator?_eq_none.2 fun op hop ↦ (hstops op hop).ne
    rw [List.flatMap_nil, List.nil_append, chain, hnone]
    rfl
  | cons l links =>
    obtain ⟨⟨hlevel, hright⟩, hlinks⟩ := List.forall_mem_cons.1 hlinks
    rw [List.flatMap_cons, Link.lexemes, List.cons_append, List.length_cons,
      List.length_append] at hfuel
    have hwhole : l.right.Whole (k + 1) (links.flatMap Link.lexemes ++ rest) :=
      ⟨hright, hsettled.1, stopsBelow_links hlinks hstops⟩
    have hop : operator? k (l.op.punct.at l.sign ::
        (l.right.lexemes ++ (links.flatMap Link.lexemes ++ rest))) = some (l.op, _) :=
      operator?_eq_some.2 ⟨l.sign, rfl, hlevel⟩
    rw [List.flatMap_cons, Link.lexemes, List.cons_append, List.cons_append, List.append_assoc,
      chain, hop]
    show expr source fuel (k + 1) _ >>= _ = _
    rw [ih.expr hwhole (by omega)]
    exact ih.chain (p := .binary p l.op l.sign l.right) hsettled.2 hlinks hstops (by omega)

omit ih in
/-- An operand that starts like a call is a call. -/
theorem atom_call (c : CallPhrase) (rest : List Lexeme) :
    atom source (fuel + 1) (c.lexemes ++ rest) =
      call source fuel (c.lexemes ++ rest) >>= fun r ↦ .ok (.call r.1 r.1.span, r.2) := by
  have key : ∀ (head : CallHead) (ts : List Lexeme),
      atom source (fuel + 1) (head.lexemes ++ ts) =
        call source fuel (head.lexemes ++ ts) >>= fun r ↦ .ok (.call r.1 r.1.span, r.2) := by
    rintro ⟨collapse, name, nameSpan, opening⟩ ts
    cases collapse with
    | none | some span => rfl
  cases c with
  | empty head closing | full head args closing =>
    rw [CallPhrase.lexemes, List.append_assoc]
    exact key head _

private theorem atom_takesPhrases {p : Phrase} {rest : List Lexeme}
    (hlevel : p.Leveled BinOp.levels)
    (hsettled : p.Settled rest) (hfuel : 2 * p.lexemes.length ≤ fuel + 2) :
    atom source (fuel + 1) (p.lexemes ++ rest) = .ok (p.tree source, rest) := by
  cases p with
  | number | hex | target => rfl
  | name s span =>
    rw [Phrase.lexemes, List.singleton_append, atom]
    · rfl
    · rintro opening more rfl
      exact hsettled _ rfl rfl
  | paren opening inner closing =>
    rw [Phrase.lexemes, List.length_cons, List.length_append, List.length_singleton] at hfuel
    have hwhole : inner.Whole 0 (Punct.closeParen.at closing :: rest) :=
      ⟨hlevel, hsettled, stopsBelow_closeParen 0 closing rest⟩
    rw [Phrase.lexemes, List.cons_append, List.append_assoc, List.singleton_append, Punct.at, atom,
      ih.expr hwhole (by omega)]
    rfl
  | calculation word opening inner closing =>
    rw [Phrase.lexemes, List.length_cons, List.length_cons, List.length_append,
      List.length_singleton] at hfuel
    have hwhole : inner.Whole 0 (Punct.closeParen.at closing :: rest) :=
      ⟨hlevel, hsettled, stopsBelow_closeParen 0 closing rest⟩
    rw [Phrase.lexemes, List.cons_append, List.cons_append, List.append_assoc,
      List.singleton_append, atom, mark_at]
    show expr source fuel 0 _ >>= _ = _
    rw [ih.expr hwhole (by omega)]
    rfl
  | call c =>
    have hcall := ih.call hlevel hsettled hfuel
    rw [Phrase.lexemes, atom_call c, hcall]
    rfl
  | not sign inner =>
    rw [Phrase.lexemes, List.length_cons] at hfuel
    have hwhole : inner.Whole 0 rest := ⟨hlevel, hsettled.2, hsettled.1⟩
    rw [Phrase.lexemes, List.cons_append, Punct.at, atom, ih.expr hwhole (by omega)]
    rfl
  | binary left op sign right =>
    rw [Phrase.Leveled] at hlevel
    exact absurd hlevel.1 op.level_lt_levels.not_ge

private theorem args_takesPhrases {p : ArgsPhrase} {done : List Arg} {closing : Span}
    {rest : List Lexeme} (hlevel : p.Leveled)
    (hsettled : p.Settled (Punct.closeParen.at closing :: rest))
    (hfuel : 2 * p.lexemes.length + 1 ≤ fuel + 1) :
    args source (fuel + 1) done (p.lexemes ++ Punct.closeParen.at closing :: rest) =
      .ok (done.reverse ++ p.trees source, Punct.closeParen.at closing :: rest) := by
  -- one argument is taken, and then what follows it decides
  have hone : ∀ (arg : ArgPhrase) (ts : List Lexeme), arg.Leveled → arg.Settled ts →
      StopsBelow 0 ts → 2 * arg.lexemes.length ≤ fuel →
      args source (fuel + 1) done (arg.lexemes ++ ts) =
        afterArg source fuel (arg.tree source :: done) ts := by
    intro arg ts hlevel hsettled hstops hfuel
    cases arg with
    | text value span => rfl
    | expr e =>
      have hwhole : e.Whole 0 ts := ⟨hlevel, hsettled, hstops⟩
      have hread := ih.expr hwhole hfuel
      have hstart := e.startsExpr_lexemes ts
      rw [ArgPhrase.lexemes, args.eq_def]
      dsimp only
      split
      next htext =>
        rw [htext] at hstart
        cases hstart
      · rw [hread]
        rfl
  cases p with
  | last arg =>
    rw [ArgsPhrase.lexemes] at hfuel ⊢
    rw [hone arg _ hlevel hsettled (stopsBelow_closeParen 0 closing rest) (by omega)]
    show Except.ok ((arg.tree source :: done).reverse, _) = _
    rw [List.reverse_cons]
    rfl
  | more arg comma more =>
    rw [ArgsPhrase.lexemes, List.length_append, List.length_cons] at hfuel
    rw [ArgsPhrase.lexemes, List.append_assoc, List.cons_append,
      hone arg _ hlevel.1 hsettled.1 (stopsBelow_comma _ _ _) (by omega)]
    show args source fuel (arg.tree source :: done) _ = _
    rw [ih.args hlevel.2 hsettled.2 (by omega), List.reverse_cons, List.append_assoc]
    rfl

omit ih in
/-- A call is what its parentheses hold, once its head is read. -/
theorem call_head (head : CallHead) (ts : List Lexeme) :
    call source (fuel + 1) (head.lexemes ++ ts) = (do
      let (as, ts) ← match ts with
        | ⟨.punct .closeParen, _⟩ :: _ => .ok ([], ts)
        | ts => args source fuel [] ts
      let (close, ts) ← mark .closeParen ts
      .ok (.mk head.name head.nameSpan head.collapse.isSome as (head.start.merge close), ts)) := by
  obtain ⟨collapse, name, nameSpan, opening⟩ := head
  rw [call_succ]
  cases collapse with
  | none | some span => rfl

private theorem call_takesPhrases {p : CallPhrase} {rest : List Lexeme} (hlevel : p.Leveled)
    (hsettled : p.Settled rest) (hfuel : 2 * p.lexemes.length ≤ fuel + 3) :
    call source (fuel + 1) (p.lexemes ++ rest) = .ok (p.tree source, rest) := by
  cases p with
  | empty head closing =>
    rw [CallPhrase.lexemes, List.append_assoc, call_head]
    rfl
  | full head args closing =>
    rw [CallPhrase.lexemes, List.length_append, List.length_append, List.length_singleton] at hfuel
    have hhead := head.two_le_length
    rw [CallPhrase.lexemes, List.append_assoc, List.append_assoc, List.singleton_append, call_head]
    dsimp only
    split
    next hclosing => exact (args.lexemes_ne_closeParen hclosing).elim
    · rw [ih.args hlevel hsettled (by omega)]
      rfl

end

private theorem takesPhrases (source : String) : ∀ fuel, TakesPhrases source fuel
  | 0 => by
    refine ⟨fun {p} _ _ _ hfuel ↦ ?_, fun _ _ _ hfuel ↦ ?_, fun {p} _ _ _ hfuel ↦ ?_,
      fun {p} _ _ _ hfuel ↦ ?_, fun _ _ hfuel ↦ ?_⟩
    · have := p.length_lexemes_pos
      omega
    · omega
    · have := p.length_lexemes_pos
      omega
    · have := p.two_lt_length
      omega
    · omega
  | fuel + 1 =>
    have ih := takesPhrases source fuel
    ⟨expr_takesPhrases ih, chain_takesPhrases ih, atom_takesPhrases ih, call_takesPhrases ih,
      args_takesPhrases ih⟩

/-- A whole phrase is read, in as many steps as it has lexemes twice over. -/
theorem expr_of_whole {p : Phrase} {fuel k : Nat} {rest : List Lexeme} (h : p.Whole k rest)
    (hfuel : 2 * p.lexemes.length ≤ fuel) :
    expr source fuel k (p.lexemes ++ rest) = .ok (p.tree source, rest) :=
  (takesPhrases source fuel).expr h hfuel

theorem call_of_settled {p : CallPhrase} {fuel : Nat} {rest : List Lexeme} (hlevel : p.Leveled)
    (hsettled : p.Settled rest) (hfuel : 2 * p.lexemes.length ≤ fuel + 2) :
    call source fuel (p.lexemes ++ rest) = .ok (p.tree source, rest) :=
  (takesPhrases source fuel).call hlevel hsettled hfuel

end Parser

end CharacterScript
