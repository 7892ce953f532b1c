import CharacterScript.Proofs.TreeSpans

/-!
# Expressions as they are written

A `Phrase` is an expression with everything that was written for it: parentheses, commas, the
argument of a calculation, and the place of each lexeme. It is the derivation of a list of lexemes
in the grammar of expressions, and both sides can be computed from it: `Phrase.lexemes` is what is
written, `Phrase.tree` the expression it stands for.

## Levels

Which phrases the grammar has is `Phrase.Leveled`. An expression of level `k` is an expression of
level `k + 1`, or an expression of level `k`, an operator of level `k` and an expression of level `k
+ 1`; from level `BinOp.levels` on there are only operands. So operators of one level associate to
the left. Parentheses, `!`, calculations and arguments hold expressions of level `0`.

## Why not trees

A tree forgets parentheses, commas and most places, so there are many texts for one tree and the
tree does not say how to write it. A phrase forgets nothing that was written. What is proved about
texts, their lexemes and what they mean is proved by recursion on phrases, and the reader has to
be understood only once.
-/

namespace CharacterScript

/-! ## Operators and their marks -/

namespace BinOp

/-- The mark an operator is written with. -/
def punct : BinOp → Punct
  | or => .orOr
  | and => .andAnd
  | bitOr => .pipe
  | bitXor => .caret
  | bitAnd => .ampersand
  | eq => .eqEq
  | ne => .notEq
  | gt => .greater
  | ge => .greaterEq
  | lt => .less
  | le => .lessEq
  | shl => .shiftLeft
  | shr => .shiftRight
  | add => .plus
  | sub => .minus
  | mul => .star
  | div => .slash
  | mod => .percent

theorem ofPunct?_eq_some {p : Punct} {op : BinOp} : ofPunct? p = some op ↔ p = op.punct := by
  constructor
  · intro h
    cases p <;> cases h <;> rfl
  · rintro rfl
    cases op <;> rfl

theorem punct_injective {op op' : BinOp} (h : op.punct = op'.punct) : op = op' :=
  Option.some.inj ((ofPunct?_eq_some.2 rfl).symm.trans (ofPunct?_eq_some.2 h))

end BinOp

/-! ## Phrases -/

/-- What a call starts with: its name and the parenthesis, and perhaps `collapse` in front. -/
structure CallHead where
  /-- Where the word `collapse` stands, if it does. -/
  collapse : Option Span
  /-- What is called. -/
  name : String
  /-- Where that name stands. -/
  nameSpan : Span
  /-- The opening parenthesis. -/
  opening : Span

mutual

inductive Phrase where
  | number (value : Float) (span : Span)
  | hex (value : UInt32) (span : Span)
  | name (s : String) (span : Span)
  /-- A name behind an `@`. -/
  | target (sign : Span) (s : String) (span : Span)
  | paren (opening : Span) (inner : Phrase) (closing : Span)
  | calculation (word opening : Span) (inner : Phrase) (closing : Span)
  | call (c : CallPhrase)
  | not (sign : Span) (inner : Phrase)
  | binary (left : Phrase) (op : BinOp) (sign : Span) (right : Phrase)

inductive CallPhrase where
  | empty (head : CallHead) (closing : Span)
  | full (head : CallHead) (args : ArgsPhrase) (closing : Span)

/-- One or more arguments, with commas between them. -/
inductive ArgsPhrase where
  | last (arg : ArgPhrase)
  | more (arg : ArgPhrase) (comma : Span) (rest : ArgsPhrase)

inductive ArgPhrase where
  | expr (p : Phrase)
  | text (value : String) (span : Span)

end

/-! ## What is written -/

/-- A mark at a place. -/
def Punct.at (p : Punct) (span : Span) : Lexeme :=
  ⟨.punct p, span⟩

def CallHead.lexemes (head : CallHead) : List Lexeme :=
  (head.collapse.map fun span ↦ ⟨.keyword .collapse, span⟩).toList ++
    [⟨.name head.name, head.nameSpan⟩, Punct.openParen.at head.opening]

mutual

def Phrase.lexemes : Phrase → List Lexeme
  | .number value span => [⟨.number value, span⟩]
  | .hex value span => [⟨.hex value, span⟩]
  | .name s span => [⟨.name s, span⟩]
  | .target sign s span => [Punct.at_.at sign, ⟨.name s, span⟩]
  | .paren opening inner closing =>
    Punct.openParen.at opening :: (inner.lexemes ++ [Punct.closeParen.at closing])
  | .calculation word opening inner closing =>
    ⟨.calcWord, word⟩ :: Punct.openParen.at opening ::
      (inner.lexemes ++ [Punct.closeParen.at closing])
  | .call c => c.lexemes
  | .not sign inner => Punct.bang.at sign :: inner.lexemes
  | .binary left op sign right => left.lexemes ++ op.punct.at sign :: right.lexemes

def CallPhrase.lexemes : CallPhrase → List Lexeme
  | .empty head closing => head.lexemes ++ [Punct.closeParen.at closing]
  | .full head args closing => head.lexemes ++ (args.lexemes ++ [Punct.closeParen.at closing])

def ArgsPhrase.lexemes : ArgsPhrase → List Lexeme
  | .last arg => arg.lexemes
  | .more arg comma rest => arg.lexemes ++ Punct.comma.at comma :: rest.lexemes

def ArgPhrase.lexemes : ArgPhrase → List Lexeme
  | .expr p => p.lexemes
  | .text value span => [⟨.text value, span⟩]

end

/-! ## Neither end marks nor directives inside

The end mark ends a list of lexemes, and a directive ends an item. So it can be seen in a list of
lexemes how far a phrase can reach. -/

/-- There is no end mark among the lexemes. -/
def NoEof (ls : List Lexeme) : Prop :=
  ∀ l ∈ ls, l.token ≠ .eof

theorem noEof_cons {l : Lexeme} {ls : List Lexeme} :
    NoEof (l :: ls) ↔ l.token ≠ .eof ∧ NoEof ls :=
  List.forall_mem_cons

/-- What may stand inside of an item: neither the end mark nor a path directive. -/
@[simp] def Token.isInner : Token → Bool
  | .eof | .directive _ _ => false
  | _ => true

theorem Token.isInner_iff {t : Token} :
    t.isInner = true ↔ t ≠ .eof ∧ ∀ d path, t ≠ .directive d path := by
  cases t <;> simp

/-- All of the lexemes may stand inside of an item. -/
def Inner (ls : List Lexeme) : Prop :=
  ∀ l ∈ ls, l.token.isInner = true

theorem Inner.noEof {ls : List Lexeme} (h : Inner ls) : NoEof ls :=
  fun l hl ↦ (Token.isInner_iff.1 (h l hl)).1

@[simp] theorem inner_nil : Inner [] :=
  List.forall_mem_nil _

@[simp] theorem inner_cons {l : Lexeme} {ls : List Lexeme} :
    Inner (l :: ls) ↔ l.token.isInner = true ∧ Inner ls :=
  List.forall_mem_cons

@[simp] theorem inner_append {ls ms : List Lexeme} : Inner (ls ++ ms) ↔ Inner ls ∧ Inner ms :=
  List.forall_mem_append

@[simp] theorem Punct.token_at (p : Punct) (span : Span) : (p.at span).token = .punct p := rfl

@[simp] theorem CallHead.inner (head : CallHead) : Inner head.lexemes := by
  obtain ⟨collapse, name, nameSpan, opening⟩ := head
  cases collapse <;> simp [CallHead.lexemes]

mutual

theorem Phrase.inner : ∀ p : Phrase, Inner p.lexemes
  | .number _ _ | .hex _ _ | .name _ _ | .target _ _ _ => by simp [Phrase.lexemes]
  | .paren _ p _ | .calculation _ _ p _ | .not _ p => by simp [Phrase.lexemes, p.inner]
  | .call c => by simp [Phrase.lexemes, c.inner]
  | .binary left _ _ right => by simp [Phrase.lexemes, left.inner, right.inner]

theorem CallPhrase.inner : ∀ c : CallPhrase, Inner c.lexemes
  | .empty _ _ => by simp [CallPhrase.lexemes]
  | .full _ args _ => by simp [CallPhrase.lexemes, args.inner]

theorem ArgsPhrase.inner : ∀ a : ArgsPhrase, Inner a.lexemes
  | .last arg => by simp [ArgsPhrase.lexemes, arg.inner]
  | .more arg _ rest => by simp [ArgsPhrase.lexemes, arg.inner, rest.inner]

theorem ArgPhrase.inner : ∀ a : ArgPhrase, Inner a.lexemes
  | .expr p => by simp [ArgPhrase.lexemes, p.inner]
  | .text _ _ => by simp [ArgPhrase.lexemes]

end

theorem Phrase.noEof (p : Phrase) : NoEof p.lexemes :=
  p.inner.noEof

/-- In front of the first end mark there is one list of lexemes. -/
theorem eq_of_append_eof {ls ms rest rest' : List Lexeme} {stop stop' : Span} (hls : NoEof ls)
    (hms : NoEof ms) (h : ls ++ ⟨.eof, stop⟩ :: rest = ms ++ ⟨.eof, stop'⟩ :: rest') :
    ls = ms ∧ (⟨.eof, stop⟩ :: rest : List Lexeme) = ⟨.eof, stop'⟩ :: rest' := by
  induction ls generalizing ms with
  | nil =>
    cases ms with
    | nil => exact ⟨rfl, h⟩
    | cons m ms =>
      obtain ⟨rfl, -⟩ := List.cons.inj h
      exact absurd rfl (noEof_cons.1 hms).1
  | cons l ls ih =>
    cases ms with
    | nil =>
      obtain ⟨rfl, -⟩ := List.cons.inj h
      exact absurd rfl (noEof_cons.1 hls).1
    | cons m ms =>
      obtain ⟨rfl, htail⟩ := List.cons.inj h
      obtain ⟨rfl, hrest⟩ := ih (noEof_cons.1 hls).2 (noEof_cons.1 hms).2 htail
      exact ⟨rfl, hrest⟩

/-! ## What it stands for -/

/-- The place a call starts at. -/
def CallHead.start (head : CallHead) : Span :=
  head.collapse.getD head.nameSpan

mutual

/-- The expression; `source` is what the texts of calculations are cut from. -/
def Phrase.tree (source : String) : Phrase → Expr
  | .number value span => .number value span
  | .hex value span => .number (Float.ofNat value.toNat) span
  | .name s span => .name s false span
  | .target sign s span => .name s true (sign.merge span)
  | .paren opening inner closing => (inner.tree source).withSpan (opening.merge closing)
  | .calculation word opening _ closing =>
    .calculation (Parser.captured source ⟨opening.stop, closing.start⟩) (word.merge closing)
  | .call c => .call (c.tree source) (c.tree source).span
  | .not sign inner => .not (inner.tree source) (sign.merge (inner.tree source).span)
  | .binary left op _ right => .join op (left.tree source) (right.tree source)

def CallPhrase.tree (source : String) : CallPhrase → Call
  | .empty head closing =>
    .mk head.name head.nameSpan head.collapse.isSome [] (head.start.merge closing)
  | .full head args closing =>
    .mk head.name head.nameSpan head.collapse.isSome (args.trees source) (head.start.merge closing)

def ArgsPhrase.trees (source : String) : ArgsPhrase → List Arg
  | .last arg => [arg.tree source]
  | .more arg _ rest => arg.tree source :: rest.trees source

def ArgPhrase.tree (source : String) : ArgPhrase → Arg
  | .expr p => .expr (p.tree source)
  | .text value span => .text value span

end

/-! ## The grammar -/

mutual

/-- Whether a phrase is an expression of level `k`. -/
def Phrase.Leveled : Nat → Phrase → Prop
  | _, .number _ _ | _, .hex _ _ | _, .name _ _ | _, .target _ _ _ => True
  | _, .paren _ inner _ | _, .calculation _ _ inner _ | _, .not _ inner => inner.Leveled 0
  | _, .call c => c.Leveled
  | k, .binary left op _ right =>
    k ≤ op.level ∧ left.Leveled op.level ∧ right.Leveled (op.level + 1)

def CallPhrase.Leveled : CallPhrase → Prop
  | .empty _ _ => True
  | .full _ args _ => args.Leveled

def ArgsPhrase.Leveled : ArgsPhrase → Prop
  | .last arg => arg.Leveled
  | .more arg _ rest => arg.Leveled ∧ rest.Leveled

def ArgPhrase.Leveled : ArgPhrase → Prop
  | .expr p => p.Leveled 0
  | .text _ _ => True

end

theorem Phrase.Leveled.mono {p : Phrase} {k k' : Nat} (h : p.Leveled k) (hle : k' ≤ k) :
    p.Leveled k' := by
  cases p with
  | binary left op sign right =>
    rw [Phrase.Leveled] at h ⊢
    exact ⟨hle.trans h.1, h.2⟩
  | number | hex | name | target => trivial
  | paren | calculation | call | not =>
    rw [Phrase.Leveled] at h ⊢
    exact h

/-! ## What may follow

A phrase is read as a whole only if what follows does not go on with it. This is said of the next
lexeme alone. -/

/-- The operator that comes next. -/
def nextOperator? : List Lexeme → Option BinOp
  | ⟨.punct p, _⟩ :: _ => BinOp.ofPunct? p
  | _ => none

/-- No operator of level `k` or above comes next. -/
def StopsBelow (k : Nat) (rest : List Lexeme) : Prop :=
  ∀ op, nextOperator? rest = some op → op.level < k

/-- No parenthesis comes next, which would make a call of a name. -/
def NoOpening (rest : List Lexeme) : Prop :=
  ∀ l, rest.head? = some l → l.token ≠ .punct .openParen

theorem StopsBelow.mono {k k' : Nat} {rest : List Lexeme} (h : StopsBelow k rest) (hle : k ≤ k') :
    StopsBelow k' rest :=
  fun op hop ↦ (h op hop).trans_le hle

@[simp] theorem nextOperator?_at (op : BinOp) (sign : Span) (rest : List Lexeme) :
    nextOperator? (op.punct.at sign :: rest) = some op :=
  BinOp.ofPunct?_eq_some.2 rfl

theorem noOpening_operator (op : BinOp) (sign : Span) (rest : List Lexeme) :
    NoOpening (op.punct.at sign :: rest) := by
  intro l hl
  cases hl
  cases op <;> simp [Punct.at, BinOp.punct]

theorem stopsBelow_levels (rest : List Lexeme) : StopsBelow BinOp.levels rest :=
  fun op _ ↦ op.level_lt_levels

mutual

/-- What a phrase leaves to come does not belong to it: no operator behind the operand of a `!`,
which would take it in, and no parenthesis behind a name. -/
def Phrase.Settled : Phrase → List Lexeme → Prop
  | .number _ _, _ | .hex _ _, _ | .target _ _ _, _ => True
  | .name _ _, rest => NoOpening rest
  | .paren _ inner closing, rest | .calculation _ _ inner closing, rest =>
    inner.Settled (Punct.closeParen.at closing :: rest)
  | .call c, rest => c.Settled rest
  | .not _ inner, rest => StopsBelow 0 rest ∧ inner.Settled rest
  | .binary left op sign right, rest =>
    left.Settled (op.punct.at sign :: (right.lexemes ++ rest)) ∧ right.Settled rest

def CallPhrase.Settled : CallPhrase → List Lexeme → Prop
  | .empty _ _, _ => True
  | .full _ args closing, rest => args.Settled (Punct.closeParen.at closing :: rest)

def ArgsPhrase.Settled : ArgsPhrase → List Lexeme → Prop
  | .last arg, rest => arg.Settled rest
  | .more arg comma more, rest =>
    arg.Settled (Punct.comma.at comma :: (more.lexemes ++ rest)) ∧ more.Settled rest

def ArgPhrase.Settled : ArgPhrase → List Lexeme → Prop
  | .expr p, rest => p.Settled rest
  | .text _ _, _ => True

end

end CharacterScript
