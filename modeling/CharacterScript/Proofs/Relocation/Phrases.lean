import CharacterScript.Proofs.Grammar.Separation
import CharacterScript.Proofs.Relocation.Trees

/-!
# Moving what is written, and putting something else in place of a name

`Phrase.edit` moves every lexeme of a phrase and puts another phrase in place of each plain name.
The argument of a calculation is only moved: what counts of it is its text. So a phrase is a list of
`Part`s, in the order in which they are written: plain names, calculations, and single lexemes.

## What is kept

An edited phrase is still whole in front of what follows (`Phrase.Settled.edit`), its lexemes are
those of its parts (`Phrase.lexemes_edit`), and its tree is what the old tree moves to, if this is
so of each part (`Phrase.moves_edit`).

## Edits

An edit is two functions, one for places and one for plain names. It does not say where in a text
it happens, so it can be put together from pieces: in front of an edited place nothing moves, and
behind it everything moves by one distance. What is asked of an edit is that what it puts in
starts with a token that the readers treat like a name (`Edit.Fits`).
-/

namespace CharacterScript

/-! ## Parts

What is in a calculation is not edited by name, so it is one part with all of its lexemes. -/

inductive Part where
  | name (s : String) (span : Span)
  | calculation (word opening : Span) (inner : Phrase) (closing : Span)
  | lexeme (l : Lexeme)

namespace Part

def lexemes : Part → List Lexeme
  | name s span => [⟨.name s, span⟩]
  | calculation word opening inner closing =>
    (Phrase.calculation word opening inner closing).lexemes
  | lexeme l => [l]

end Part

mutual

def Phrase.parts : Phrase → List Part
  | .number value span => [.lexeme ⟨.number value, span⟩]
  | .hex value span => [.lexeme ⟨.hex value, span⟩]
  | .name s span => [.name s span]
  | .target sign s span => [.lexeme (Punct.at_.at sign), .lexeme ⟨.name s, span⟩]
  | .paren opening inner closing =>
    .lexeme (Punct.openParen.at opening) ::
      (inner.parts ++ [.lexeme (Punct.closeParen.at closing)])
  | .calculation word opening inner closing => [.calculation word opening inner closing]
  | .call c => c.parts
  | .not sign inner => .lexeme (Punct.bang.at sign) :: inner.parts
  | .binary left op sign right => left.parts ++ .lexeme (op.punct.at sign) :: right.parts

def CallPhrase.parts : CallPhrase → List Part
  | .empty head closing =>
    head.lexemes.map .lexeme ++ [.lexeme (Punct.closeParen.at closing)]
  | .full head args closing =>
    head.lexemes.map .lexeme ++ (args.parts ++ [.lexeme (Punct.closeParen.at closing)])

def ArgsPhrase.parts : ArgsPhrase → List Part
  | .last arg => arg.parts
  | .more arg comma rest => arg.parts ++ .lexeme (Punct.comma.at comma) :: rest.parts

def ArgPhrase.parts : ArgPhrase → List Part
  | .expr p => p.parts
  | .text value span => [.lexeme ⟨.text value, span⟩]

end

mutual

def StmtPhrase.parts : StmtPhrase → List Part
  | .break_ word => [.lexeme (Keyword.break_.at word)]
  | .call c => c.parts
  | .let_ word s nameSpan sign value =>
    .lexeme (Keyword.let_.at word) :: .lexeme ⟨.name s, nameSpan⟩ :: .lexeme (Punct.eq.at sign) ::
      value.parts
  | .assign s nameSpan op sign value =>
    .lexeme ⟨.name s, nameSpan⟩ :: ((op.map fun o ↦ o.1.punct.at o.2).toList.map .lexeme ++
      .lexeme (Punct.eq.at sign) :: value.parts)
  | .return_ word => [.lexeme (Keyword.return_.at word)]
  | .returnValue word value => .lexeme (Keyword.return_.at word) :: value.parts
  | .loop word body => .lexeme (Keyword.loop.at word) :: body.parts
  | .if_ word cond body rest =>
    .lexeme (Keyword.if_.at word) :: (cond.parts ++ (body.parts ++ rest.parts))
  | .lone s span => [.lexeme ⟨.name s, span⟩]

def BlockPhrase.parts : BlockPhrase → List Part
  | .mk opening stmts closing =>
    .lexeme (Punct.openBrace.at opening) ::
      (stmts.parts ++ [.lexeme (Punct.closeBrace.at closing)])

def StmtsPhrase.parts : StmtsPhrase → List Part
  | .nil => []
  | .cons s rest => s.parts ++ rest.parts

def BranchesPhrase.parts : BranchesPhrase → List Part
  | .done => []
  | .else_ word body => .lexeme (Keyword.else_.at word) :: body.parts
  | .elif word cond body rest =>
    .lexeme (Keyword.elif.at word) :: (cond.parts ++ (body.parts ++ rest.parts))

end

@[simp] theorem flatMap_lexeme (ls : List Lexeme) :
    (ls.map Part.lexeme).flatMap Part.lexemes = ls := by
  induction ls with
  | nil => rfl
  | cons l ls ih => rw [List.map_cons, List.flatMap_cons, ih, Part.lexemes, List.singleton_append]

mutual

theorem Phrase.flatMap_parts : ∀ p : Phrase, p.parts.flatMap Part.lexemes = p.lexemes
  | .number _ _ | .hex _ _ | .name _ _ | .target _ _ _ | .calculation _ _ _ _ => by
    simp [Phrase.parts, Phrase.lexemes, Part.lexemes]
  | .paren _ inner _ | .not _ inner => by
    simp [Phrase.parts, Phrase.lexemes, Part.lexemes, inner.flatMap_parts]
  | .call c => by simp [Phrase.parts, Phrase.lexemes, c.flatMap_parts]
  | .binary left _ _ right => by
    simp [Phrase.parts, Phrase.lexemes, Part.lexemes, left.flatMap_parts, right.flatMap_parts]

theorem CallPhrase.flatMap_parts : ∀ c : CallPhrase, c.parts.flatMap Part.lexemes = c.lexemes
  | .empty _ _ => by simp [CallPhrase.parts, CallPhrase.lexemes, Part.lexemes]
  | .full _ args _ => by
    simp [CallPhrase.parts, CallPhrase.lexemes, Part.lexemes, args.flatMap_parts]

theorem ArgsPhrase.flatMap_parts : ∀ a : ArgsPhrase, a.parts.flatMap Part.lexemes = a.lexemes
  | .last arg => by simp [ArgsPhrase.parts, ArgsPhrase.lexemes, arg.flatMap_parts]
  | .more arg _ rest => by
    simp [ArgsPhrase.parts, ArgsPhrase.lexemes, Part.lexemes, arg.flatMap_parts, rest.flatMap_parts]

theorem ArgPhrase.flatMap_parts : ∀ a : ArgPhrase, a.parts.flatMap Part.lexemes = a.lexemes
  | .expr p => by simp [ArgPhrase.parts, ArgPhrase.lexemes, p.flatMap_parts]
  | .text _ _ => by simp [ArgPhrase.parts, ArgPhrase.lexemes, Part.lexemes]

end

mutual

theorem StmtPhrase.flatMap_parts : ∀ s : StmtPhrase, s.parts.flatMap Part.lexemes = s.lexemes
  | .break_ _ | .return_ _ | .lone _ _ => by simp [StmtPhrase.parts, StmtPhrase.lexemes,
    Part.lexemes]
  | .call c => by simp [StmtPhrase.parts, StmtPhrase.lexemes, c.flatMap_parts]
  | .let_ _ _ _ _ value | .assign _ _ _ _ value | .returnValue _ value => by
    simp [StmtPhrase.parts, StmtPhrase.lexemes, Part.lexemes, value.flatMap_parts]
  | .loop _ body => by
    simp [StmtPhrase.parts, StmtPhrase.lexemes, Part.lexemes, body.flatMap_parts]
  | .if_ _ cond body rest => by
    simp [StmtPhrase.parts, StmtPhrase.lexemes, Part.lexemes, cond.flatMap_parts,
      body.flatMap_parts, rest.flatMap_parts]

theorem BlockPhrase.flatMap_parts : ∀ b : BlockPhrase, b.parts.flatMap Part.lexemes = b.lexemes
  | .mk _ stmts _ => by
    simp [BlockPhrase.parts, BlockPhrase.lexemes, Part.lexemes, stmts.flatMap_parts]

theorem StmtsPhrase.flatMap_parts : ∀ ss : StmtsPhrase, ss.parts.flatMap Part.lexemes = ss.lexemes
  | .nil => rfl
  | .cons s rest => by
    simp [StmtsPhrase.parts, StmtsPhrase.lexemes, s.flatMap_parts, rest.flatMap_parts]

theorem BranchesPhrase.flatMap_parts : ∀ b : BranchesPhrase,
    b.parts.flatMap Part.lexemes = b.lexemes
  | .done => rfl
  | .else_ _ body => by
    simp [BranchesPhrase.parts, BranchesPhrase.lexemes, Part.lexemes, body.flatMap_parts]
  | .elif _ cond body rest => by
    simp [BranchesPhrase.parts, BranchesPhrase.lexemes, Part.lexemes, cond.flatMap_parts,
      body.flatMap_parts, rest.flatMap_parts]

end

/-! ## Editing

The shape of a phrase stays, and only its leaves are others. -/

/-- How a text is edited: where lexemes go, and what comes in place of the plain names. -/
structure Edit where
  /-- Where the lexeme at a place goes. -/
  move : Span → Span
  /-- What comes in place of the name at a place. -/
  leaf : String → Span → Phrase

namespace Edit

/-- Names stay names. -/
def plain (move : Span → Span) : Edit :=
  ⟨move, fun s span ↦ .name s (move span)⟩

def lexeme (E : Edit) (l : Lexeme) : Lexeme :=
  ⟨l.token, E.move l.span⟩

def head (E : Edit) (h : CallHead) : CallHead :=
  ⟨h.collapse.map E.move, h.name, E.move h.nameSpan, E.move h.opening⟩

end Edit

mutual

def Phrase.edit (E : Edit) : Phrase → Phrase
  | .number value span => .number value (E.move span)
  | .hex value span => .hex value (E.move span)
  | .name s span => E.leaf s span
  | .target sign s span => .target (E.move sign) s (E.move span)
  | .paren opening inner closing => .paren (E.move opening) (inner.edit E) (E.move closing)
  | .calculation word opening inner closing =>
    .calculation (E.move word) (E.move opening) (inner.edit (.plain E.move)) (E.move closing)
  | .call c => .call (c.edit E)
  | .not sign inner => .not (E.move sign) (inner.edit E)
  | .binary left op sign right => .binary (left.edit E) op (E.move sign) (right.edit E)

def CallPhrase.edit (E : Edit) : CallPhrase → CallPhrase
  | .empty head closing => .empty (E.head head) (E.move closing)
  | .full head args closing => .full (E.head head) (args.edit E) (E.move closing)

def ArgsPhrase.edit (E : Edit) : ArgsPhrase → ArgsPhrase
  | .last arg => .last (arg.edit E)
  | .more arg comma rest => .more (arg.edit E) (E.move comma) (rest.edit E)

def ArgPhrase.edit (E : Edit) : ArgPhrase → ArgPhrase
  | .expr p => .expr (p.edit E)
  | .text value span => .text value (E.move span)

end

mutual

def StmtPhrase.edit (E : Edit) : StmtPhrase → StmtPhrase
  | .break_ word => .break_ (E.move word)
  | .call c => .call (c.edit E)
  | .let_ word s nameSpan sign value =>
    .let_ (E.move word) s (E.move nameSpan) (E.move sign) (value.edit E)
  | .assign s nameSpan op sign value =>
    .assign s (E.move nameSpan) (op.map fun o ↦ (o.1, E.move o.2)) (E.move sign) (value.edit E)
  | .return_ word => .return_ (E.move word)
  | .returnValue word value => .returnValue (E.move word) (value.edit E)
  | .loop word body => .loop (E.move word) (body.edit E)
  | .if_ word cond body rest => .if_ (E.move word) (cond.edit E) (body.edit E) (rest.edit E)
  | .lone s span => .lone s (E.move span)

def BlockPhrase.edit (E : Edit) : BlockPhrase → BlockPhrase
  | .mk opening stmts closing => .mk (E.move opening) (stmts.edit E) (E.move closing)

def StmtsPhrase.edit (E : Edit) : StmtsPhrase → StmtsPhrase
  | .nil => .nil
  | .cons s rest => .cons (s.edit E) (rest.edit E)

def BranchesPhrase.edit (E : Edit) : BranchesPhrase → BranchesPhrase
  | .done => .done
  | .else_ word body => .else_ (E.move word) (body.edit E)
  | .elif word cond body rest => .elif (E.move word) (cond.edit E) (body.edit E) (rest.edit E)

end

/-! ### What is written then -/

/-- The lexemes of a part once it is edited. -/
def Edit.part (E : Edit) : Part → List Lexeme
  | .name s span => (E.leaf s span).lexemes
  | .calculation word opening inner closing =>
    (Phrase.calculation (E.move word) (E.move opening) (inner.edit (.plain E.move))
      (E.move closing)).lexemes
  | .lexeme l => [E.lexeme l]

variable {E : Edit}

@[simp] theorem Edit.lexeme_at (p : Punct) (span : Span) :
    E.lexeme (p.at span) = p.at (E.move span) :=
  rfl

@[simp] theorem Edit.lexeme_keyword (k : Keyword) (span : Span) :
    E.lexeme (k.at span) = k.at (E.move span) :=
  rfl

@[simp] theorem flatMap_edit_lexeme (ls : List Lexeme) :
    (ls.map Part.lexeme).flatMap E.part = ls.map E.lexeme := by
  induction ls with
  | nil => rfl
  | cons l ls ih =>
    rw [List.map_cons, List.flatMap_cons, ih, Edit.part, List.singleton_append, List.map_cons]

@[simp] theorem CallHead.lexemes_edit (h : CallHead) :
    (E.head h).lexemes = h.lexemes.map E.lexeme := by
  obtain ⟨collapse, name, nameSpan, opening⟩ := h
  cases collapse <;> simp [CallHead.lexemes, Edit.head, Edit.lexeme, Punct.at]

mutual

theorem Phrase.lexemes_edit : ∀ p : Phrase, (p.edit E).lexemes = p.parts.flatMap E.part
  | .number _ _ | .hex _ _ | .name _ _ | .target _ _ _ | .calculation _ _ _ _ => by
    simp [Phrase.parts, Phrase.edit, Phrase.lexemes, Edit.part, Edit.lexeme, Punct.at]
  | .paren _ inner _ | .not _ inner => by
    simp [Phrase.parts, Phrase.edit, Phrase.lexemes, Edit.part, inner.lexemes_edit]
  | .call c => by simp [Phrase.parts, Phrase.edit, Phrase.lexemes, c.lexemes_edit]
  | .binary left _ _ right => by
    simp [Phrase.parts, Phrase.edit, Phrase.lexemes, Edit.part, left.lexemes_edit,
      right.lexemes_edit]

theorem CallPhrase.lexemes_edit : ∀ c : CallPhrase, (c.edit E).lexemes = c.parts.flatMap E.part
  | .empty _ _ => by simp [CallPhrase.parts, CallPhrase.edit, CallPhrase.lexemes, Edit.part]
  | .full _ args _ => by
    simp [CallPhrase.parts, CallPhrase.edit, CallPhrase.lexemes, Edit.part, args.lexemes_edit]

theorem ArgsPhrase.lexemes_edit : ∀ a : ArgsPhrase, (a.edit E).lexemes = a.parts.flatMap E.part
  | .last arg => by simp [ArgsPhrase.parts, ArgsPhrase.edit, ArgsPhrase.lexemes, arg.lexemes_edit]
  | .more arg _ rest => by
    simp [ArgsPhrase.parts, ArgsPhrase.edit, ArgsPhrase.lexemes, Edit.part, arg.lexemes_edit,
      rest.lexemes_edit]

theorem ArgPhrase.lexemes_edit : ∀ a : ArgPhrase, (a.edit E).lexemes = a.parts.flatMap E.part
  | .expr p => by simp [ArgPhrase.parts, ArgPhrase.edit, ArgPhrase.lexemes, p.lexemes_edit]
  | .text _ _ => by
    simp [ArgPhrase.parts, ArgPhrase.edit, ArgPhrase.lexemes, Edit.part, Edit.lexeme]

end

mutual

theorem StmtPhrase.lexemes_edit : ∀ s : StmtPhrase, (s.edit E).lexemes = s.parts.flatMap E.part
  | .break_ _ | .return_ _ | .lone _ _ => by
    simp [StmtPhrase.parts, StmtPhrase.edit, StmtPhrase.lexemes, Edit.part, Edit.lexeme, Keyword.at]
  | .call c => by simp [StmtPhrase.parts, StmtPhrase.edit, StmtPhrase.lexemes, c.lexemes_edit]
  | .let_ _ _ _ _ value | .returnValue _ value => by
    simp [StmtPhrase.parts, StmtPhrase.edit, StmtPhrase.lexemes, Edit.part, value.lexemes_edit,
      Edit.lexeme, Keyword.at, Punct.at]
  | .assign _ _ op _ value => by
    cases op <;> simp [StmtPhrase.parts, StmtPhrase.edit, StmtPhrase.lexemes, Edit.part,
      value.lexemes_edit, Edit.lexeme, Punct.at]
  | .loop _ body => by
    simp [StmtPhrase.parts, StmtPhrase.edit, StmtPhrase.lexemes, Edit.part, body.lexemes_edit]
  | .if_ _ cond body rest => by
    simp [StmtPhrase.parts, StmtPhrase.edit, StmtPhrase.lexemes, Edit.part, cond.lexemes_edit,
      body.lexemes_edit, rest.lexemes_edit]

theorem BlockPhrase.lexemes_edit : ∀ b : BlockPhrase, (b.edit E).lexemes = b.parts.flatMap E.part
  | .mk _ stmts _ => by
    simp [BlockPhrase.parts, BlockPhrase.edit, BlockPhrase.lexemes, Edit.part, stmts.lexemes_edit]

theorem StmtsPhrase.lexemes_edit : ∀ ss : StmtsPhrase,
    (ss.edit E).lexemes = ss.parts.flatMap E.part
  | .nil => rfl
  | .cons s rest => by
    simp [StmtsPhrase.parts, StmtsPhrase.edit, StmtsPhrase.lexemes, s.lexemes_edit,
      rest.lexemes_edit]

theorem BranchesPhrase.lexemes_edit : ∀ b : BranchesPhrase,
    (b.edit E).lexemes = b.parts.flatMap E.part
  | .done => rfl
  | .else_ _ body => by
    simp [BranchesPhrase.parts, BranchesPhrase.edit, BranchesPhrase.lexemes, Edit.part,
      body.lexemes_edit]
  | .elif _ cond body rest => by
    simp [BranchesPhrase.parts, BranchesPhrase.edit, BranchesPhrase.lexemes, Edit.part,
      cond.lexemes_edit, body.lexemes_edit, rest.lexemes_edit]

end

/-! ### It is still whole -/

/-- The same token comes next. -/
def SameNext (rest rest' : List Lexeme) : Prop :=
  rest'.head?.map (·.token) = rest.head?.map (·.token)

variable {rest rest' : List Lexeme}

theorem sameNext_cons {t : Token} {span span' : Span} :
    SameNext (⟨t, span⟩ :: rest) (⟨t, span'⟩ :: rest') :=
  rfl

theorem SameNext.noOpening (h : SameNext rest rest') (hrest : NoOpening rest) :
    NoOpening rest' := by
  intro l hl
  rw [SameNext, hl, Option.map_some] at h
  obtain ⟨l', hl', htoken⟩ := Option.map_eq_some_iff.1 h.symm
  rw [← htoken]
  exact hrest l' hl'

/-- A question about the next token alone has the same answer. -/
theorem SameNext.congr {α : Type} {f : List Lexeme → α} (h : SameNext rest rest')
    (hf : ∀ t span span' more more', f (⟨t, span'⟩ :: more') = f (⟨t, span⟩ :: more)) :
    f rest' = f rest := by
  cases rest with
  | nil =>
    obtain rfl : rest' = [] := by simpa [SameNext] using h
    rfl
  | cons l rest =>
    cases rest' with
    | nil => cases h
    | cons l' rest' =>
      obtain ⟨t, span⟩ := l
      obtain ⟨t', span'⟩ := l'
      obtain rfl : t' = t := Option.some.inj h
      exact hf t' span span' rest rest'

theorem SameNext.nextOperator? (h : SameNext rest rest') :
    nextOperator? rest' = nextOperator? rest :=
  h.congr fun t _ _ _ _ ↦ by cases t <;> rfl

theorem SameNext.startsExpr (h : SameNext rest rest') :
    Parser.startsExpr rest' = Parser.startsExpr rest :=
  h.congr fun t _ _ _ _ ↦ by
    cases t with
    | keyword k => cases k <;> rfl
    | punct p => cases p <;> rfl
    | _ => rfl

theorem SameNext.stopsBelow {k : Nat} (h : SameNext rest rest') (hrest : StopsBelow k rest) :
    StopsBelow k rest' := by
  rw [StopsBelow, h.nextOperator?]
  exact hrest

/-- What comes in place of names are operands, which can stand wherever a name can. -/
def Edit.Fits (E : Edit) : Prop :=
  ∀ s span, (∀ k, (E.leaf s span).Leveled k) ∧
    ∀ rest, NoOpening rest → (E.leaf s span).Settled rest

theorem Edit.plain_fits (move : Span → Span) : (Edit.plain move).Fits :=
  fun _ _ ↦ ⟨fun _ ↦ trivial, fun _ hrest ↦ hrest⟩

mutual

theorem Phrase.Leveled.edit {E : Edit} (hE : E.Fits) : ∀ {p : Phrase} {k : Nat}, p.Leveled k →
    (p.edit E).Leveled k
  | .number _ _, _, _ | .hex _ _, _, _ | .target _ _ _, _, _ => trivial
  | .name _ _, _, _ => (hE _ _).1 _
  | .paren _ inner _, _, h => Phrase.Leveled.edit hE (p := inner) h
  | .not _ inner, _, h => Phrase.Leveled.edit hE (p := inner) h
  | .calculation _ _ inner _, _, h => Phrase.Leveled.edit (Edit.plain_fits E.move) (p := inner) h
  | .call c, _, h => CallPhrase.Leveled.edit hE (c := c) h
  | .binary left _ _ right, _, h =>
    ⟨h.1, Phrase.Leveled.edit hE (p := left) h.2.1, Phrase.Leveled.edit hE (p := right) h.2.2⟩

theorem CallPhrase.Leveled.edit {E : Edit} (hE : E.Fits) : ∀ {c : CallPhrase}, c.Leveled →
    (c.edit E).Leveled
  | .empty _ _, _ => trivial
  | .full _ args _, h => ArgsPhrase.Leveled.edit hE (a := args) h

theorem ArgsPhrase.Leveled.edit {E : Edit} (hE : E.Fits) : ∀ {a : ArgsPhrase}, a.Leveled →
    (a.edit E).Leveled
  | .last arg, h => ArgPhrase.Leveled.edit hE (a := arg) h
  | .more arg _ rest, h =>
    ⟨ArgPhrase.Leveled.edit hE (a := arg) h.1, ArgsPhrase.Leveled.edit hE (a := rest) h.2⟩

theorem ArgPhrase.Leveled.edit {E : Edit} (hE : E.Fits) : ∀ {a : ArgPhrase}, a.Leveled →
    (a.edit E).Leveled
  | .expr p, h => Phrase.Leveled.edit hE (p := p) h
  | .text _ _, _ => trivial

end

mutual

theorem Phrase.Settled.edit {E : Edit} (hE : E.Fits) : ∀ {p : Phrase} {rest rest' : List Lexeme},
    p.Settled rest → SameNext rest rest' → (p.edit E).Settled rest'
  | .number _ _, _, _, _, _ | .hex _ _, _, _, _, _ | .target _ _ _, _, _, _, _ => trivial
  | .name _ _, _, _, h, hnext => (hE _ _).2 _ (hnext.noOpening h)
  | .paren _ inner _, _, _, h, _ => Phrase.Settled.edit hE (p := inner) h sameNext_cons
  | .calculation _ _ inner _, _, _, h, _ =>
    Phrase.Settled.edit (Edit.plain_fits E.move) (p := inner) h sameNext_cons
  | .call c, _, _, h, _ => CallPhrase.Settled.edit hE (c := c) h
  | .not _ inner, _, _, h, hnext =>
    ⟨hnext.stopsBelow h.1, Phrase.Settled.edit hE (p := inner) h.2 hnext⟩
  | .binary left _ _ right, _, _, h, hnext =>
    ⟨Phrase.Settled.edit hE (p := left) h.1 sameNext_cons,
      Phrase.Settled.edit hE (p := right) h.2 hnext⟩

theorem CallPhrase.Settled.edit {E : Edit} (hE : E.Fits) : ∀ {c : CallPhrase}
    {rest rest' : List Lexeme}, c.Settled rest → (c.edit E).Settled rest'
  | .empty _ _, _, _, _ => trivial
  | .full _ args _, _, _, h => ArgsPhrase.Settled.edit hE (a := args) h sameNext_cons

theorem ArgsPhrase.Settled.edit {E : Edit} (hE : E.Fits) : ∀ {a : ArgsPhrase}
    {rest rest' : List Lexeme}, a.Settled rest → SameNext rest rest' → (a.edit E).Settled rest'
  | .last arg, _, _, h, hnext => ArgPhrase.Settled.edit hE (a := arg) h hnext
  | .more arg _ more, _, _, h, hnext =>
    ⟨ArgPhrase.Settled.edit hE (a := arg) h.1 sameNext_cons,
      ArgsPhrase.Settled.edit hE (a := more) h.2 hnext⟩

theorem ArgPhrase.Settled.edit {E : Edit} (hE : E.Fits) : ∀ {a : ArgPhrase}
    {rest rest' : List Lexeme}, a.Settled rest → SameNext rest rest' → (a.edit E).Settled rest'
  | .expr p, _, _, h, hnext => Phrase.Settled.edit hE (p := p) h hnext
  | .text _ _, _, _, _, _ => trivial

end

theorem Phrase.Whole.edit {p : Phrase} {k : Nat} (h : p.Whole k rest) (hE : E.Fits)
    (hnext : SameNext rest rest') : (p.edit E).Whole k rest' :=
  ⟨h.leveled.edit hE, h.settled.edit hE hnext, hnext.stopsBelow h.stops⟩

theorem CallPhrase.sameNext_edit (c : CallPhrase) :
    SameNext (c.lexemes ++ rest) ((c.edit E).lexemes ++ rest') := by
  cases c with
  | empty head closing | full head args closing =>
    obtain ⟨collapse, name, nameSpan, opening⟩ := head
    cases collapse <;> rfl

/-- A statement does not start with an expression. -/
theorem StmtPhrase.sameNext_edit (s : StmtPhrase) :
    SameNext (s.lexemes ++ rest) ((s.edit E).lexemes ++ rest') := by
  cases s with
  | call c => exact c.sameNext_edit
  | break_ | let_ | assign | return_ | returnValue | loop | if_ | lone => rfl

theorem StmtsPhrase.sameNext_edit (ss : StmtsPhrase) (hnext : SameNext rest rest') :
    SameNext (ss.lexemes ++ rest) ((ss.edit E).lexemes ++ rest') := by
  cases ss with
  | nil => exact hnext
  | cons s more =>
    rw [StmtsPhrase.edit, StmtsPhrase.lexemes, StmtsPhrase.lexemes, List.append_assoc,
      List.append_assoc]
    exact s.sameNext_edit

theorem BlockPhrase.sameNext_edit (b : BlockPhrase) :
    SameNext (b.lexemes ++ rest) ((b.edit E).lexemes ++ rest') := by
  obtain ⟨opening, stmts, closing⟩ := b
  rfl

mutual

theorem StmtPhrase.Whole.edit {E : Edit} (hE : E.Fits) : ∀ {s : StmtPhrase}
    {rest rest' : List Lexeme}, s.Whole rest → SameNext rest rest' → Boundary rest' →
    (s.edit E).Whole rest'
  | .break_ _, _, _, _, _, _ => trivial
  | .call _, _, _, h, _, _ => ⟨h.1.edit hE, h.2.edit hE⟩
  | .let_ _ _ _ _ _, _, _, h, hnext, _ => Phrase.Whole.edit h hE hnext
  | .returnValue _ _, _, _, h, hnext, _ => Phrase.Whole.edit h hE hnext
  | .assign _ _ op _ _, _, _, h, hnext, _ => by
    refine ⟨fun o ho ↦ ?_, h.2.edit hE hnext⟩
    obtain ⟨o', ho', rfl⟩ := Option.map_eq_some_iff.1 ho
    exact h.1 o' ho'
  | .return_ _, _, _, h, hnext, _ => hnext.startsExpr.trans h
  | .loop _ body, _, _, h, _, _ => BlockPhrase.Whole.edit hE (b := body) h
  | .if_ _ _ body more, _, _, h, hnext, hboundary =>
    ⟨h.1.edit hE body.sameNext_edit, BlockPhrase.Whole.edit hE (b := body) h.2.1,
      BranchesPhrase.Whole.edit hE (b := more) h.2.2 hnext hboundary⟩
  | .lone _ _, _, _, h, hnext, hboundary => ⟨hnext.noOpening h.1, hboundary.assignment?_eq_none⟩

theorem BlockPhrase.Whole.edit {E : Edit} (hE : E.Fits) : ∀ {b : BlockPhrase}
    {rest rest' : List Lexeme}, b.Whole rest → (b.edit E).Whole rest'
  | .mk _ stmts _, _, _, h => StmtsPhrase.Whole.edit hE (p := stmts) h

theorem StmtsPhrase.Whole.edit {E : Edit} (hE : E.Fits) : ∀ {p : StmtsPhrase}
    {closing closing' : Span} {rest rest' : List Lexeme},
    p.Whole (Punct.closeBrace.at closing :: rest) →
    (p.edit E).Whole (Punct.closeBrace.at closing' :: rest')
  | .nil, _, _, _, _, _ => trivial
  | .cons s more, _, _, _, _, h =>
    ⟨StmtPhrase.Whole.edit hE (s := s) h.1 (more.sameNext_edit sameNext_cons)
        (StmtsPhrase.boundary _ _ _),
      StmtsPhrase.Whole.edit hE (p := more) h.2⟩

theorem BranchesPhrase.Whole.edit {E : Edit} (hE : E.Fits) : ∀ {b : BranchesPhrase}
    {rest rest' : List Lexeme}, b.Whole rest → SameNext rest rest' → Boundary rest' →
    (b.edit E).Whole rest'
  | .done, _, _, _, _, hboundary => hboundary.noBranch
  | .else_ _ body, _, _, h, _, _ => BlockPhrase.Whole.edit hE (b := body) h
  | .elif _ _ body more, _, _, h, hnext, hboundary =>
    ⟨h.1.edit hE body.sameNext_edit, BlockPhrase.Whole.edit hE (b := body) h.2.1,
      BranchesPhrase.Whole.edit hE (b := more) h.2.2 hnext hboundary⟩

end

/-! ## Moving alone -/

mutual

theorem Phrase.lexemes_plain (move : Span → Span) : ∀ p : Phrase,
    (p.edit (.plain move)).lexemes = p.lexemes.map (Edit.plain move).lexeme
  | .number _ _ | .hex _ _ | .name _ _ | .target _ _ _ => rfl
  | .paren _ inner _ | .not _ inner => by
    simp [Phrase.edit, Phrase.lexemes, inner.lexemes_plain move]
  | .calculation _ _ inner _ => by
    have hinner := inner.lexemes_plain move
    simp only [Phrase.edit, Phrase.lexemes, List.map_cons, List.map_append, List.map_nil,
      Edit.lexeme_at]
    rw [show (Edit.plain move).move = move from rfl, hinner]
    rfl
  | .call c => by simp [Phrase.edit, Phrase.lexemes, c.lexemes_plain move]
  | .binary left _ _ right => by
    simp [Phrase.edit, Phrase.lexemes, left.lexemes_plain move, right.lexemes_plain move]

theorem CallPhrase.lexemes_plain (move : Span → Span) : ∀ c : CallPhrase,
    (c.edit (.plain move)).lexemes = c.lexemes.map (Edit.plain move).lexeme
  | .empty _ _ => by simp [CallPhrase.edit, CallPhrase.lexemes]
  | .full _ args _ => by simp [CallPhrase.edit, CallPhrase.lexemes, args.lexemes_plain move]

theorem ArgsPhrase.lexemes_plain (move : Span → Span) : ∀ a : ArgsPhrase,
    (a.edit (.plain move)).lexemes = a.lexemes.map (Edit.plain move).lexeme
  | .last arg => by simp [ArgsPhrase.edit, ArgsPhrase.lexemes, arg.lexemes_plain move]
  | .more arg _ rest => by
    simp [ArgsPhrase.edit, ArgsPhrase.lexemes, arg.lexemes_plain move, rest.lexemes_plain move]

theorem ArgPhrase.lexemes_plain (move : Span → Span) : ∀ a : ArgPhrase,
    (a.edit (.plain move)).lexemes = a.lexemes.map (Edit.plain move).lexeme
  | .expr p => by simp [ArgPhrase.edit, ArgPhrase.lexemes, p.lexemes_plain move]
  | .text _ _ => rfl

end

theorem Edit.part_plain (move : Span → Span) (part : Part) :
    (Edit.plain move).part part = part.lexemes.map (Edit.plain move).lexeme := by
  cases part with
  | calculation word opening inner closing =>
    exact (Phrase.calculation word opening inner closing).lexemes_plain move
  | name | lexeme => rfl

/-! ## Files

The same for parameters and items. What an item declares is its name, and that is no part that
could be edited away. -/

def Edit.param (E : Edit) (p : Param) : Param :=
  { p with span := E.move p.span }

namespace ParamsPhrase

def edit (E : Edit) : ParamsPhrase → ParamsPhrase
  | empty opening closing => .empty (E.move opening) (E.move closing)
  | full opening front last closing =>
    .full (E.move opening) (front.map fun p ↦ (E.param p.1, E.move p.2)) (E.param last)
      (E.move closing)

theorem lexemes_edit (p : ParamsPhrase) : (p.edit E).lexemes = p.lexemes.map E.lexeme := by
  cases p with
  | empty => rfl
  | full opening front last closing =>
    simp [edit, lexemes, List.flatMap_map, List.map_flatMap, Edit.lexeme, Edit.param, Punct.at,
      Param.token]

theorem params_edit (p : ParamsPhrase) : (p.edit E).params = p.params.map E.param := by
  cases p with
  | empty => rfl
  | full opening front last closing => simp [edit, params, Function.comp_def]

theorem RefsFirst.edit {p : ParamsPhrase} (h : p.RefsFirst) : (p.edit E).RefsFirst := by
  rw [RefsFirst, params_edit, List.isChain_map]
  exact h

end ParamsPhrase

namespace ItemPhrase

/-- What counts of a definition is its text, so names in it stay what they are. -/
def edit (E : Edit) : ItemPhrase → ItemPhrase
  | directive d path span => directive d path (E.move span)
  | global word s span => global (E.move word) s (E.move span)
  | define word s nameSpan body =>
    define (E.move word) s (E.move nameSpan) (body.edit (.plain E.move))
  | callable kind word s nameSpan params body =>
    callable kind (E.move word) s (E.move nameSpan) (params.edit E) (body.edit E)

def parts : ItemPhrase → List Part
  | callable kind word s nameSpan params body =>
    .lexeme (kind.keyword.at word) :: .lexeme ⟨.name s, nameSpan⟩ ::
      (params.lexemes.map .lexeme ++ body.parts)
  | i => i.lexemes.map .lexeme

theorem flatMap_parts (i : ItemPhrase) : i.parts.flatMap Part.lexemes = i.lexemes := by
  cases i with
  | callable kind word s nameSpan params body =>
    simp [parts, lexemes, Part.lexemes, body.flatMap_parts]
  | directive | global | define => exact flatMap_lexeme _

theorem lexemes_edit (i : ItemPhrase) : (i.edit E).lexemes = i.parts.flatMap E.part := by
  cases i with
  | callable kind word s nameSpan params body =>
    simp [parts, edit, lexemes, Edit.part, Edit.lexeme, params.lexemes_edit, body.lexemes_edit,
      Keyword.at]
  | define word s nameSpan body =>
    have hbody := body.lexemes_plain E.move
    rw [show (Edit.plain E.move).lexeme = E.lexeme from rfl] at hbody
    simp [parts, edit, lexemes, Edit.part, Edit.lexeme, hbody]
  | directive | global => rfl

theorem sameNext_edit (i : ItemPhrase) :
    SameNext (i.lexemes ++ rest) ((i.edit E).lexemes ++ rest') := by
  cases i <;> rfl

theorem Whole.edit {i : ItemPhrase} (h : i.Whole rest) (hE : E.Fits) (hnext : SameNext rest rest') :
    (i.edit E).Whole rest' := by
  cases i with
  | directive | global => trivial
  | define word s nameSpan body => exact Phrase.Whole.edit h (Edit.plain_fits E.move) hnext
  | callable kind word s nameSpan params body => exact ⟨h.1.edit, BlockPhrase.Whole.edit hE h.2⟩

end ItemPhrase

/-- Items that start with the same tokens and are whole where the others were can take their
places. -/
theorem ItemsWhole.map {f : ItemPhrase → ItemPhrase} (hnext : SameNext rest rest') :
    ∀ {items : List ItemPhrase},
    (∀ i ∈ items, ∀ rest rest', SameNext (i.lexemes ++ rest) ((f i).lexemes ++ rest')) →
    (∀ i ∈ items, ∀ {rest rest'}, i.Whole rest → SameNext rest rest' → (f i).Whole rest') →
    ItemsWhole items rest → ItemsWhole (items.map f) rest'
  | [], _, _, _ => trivial
  | [_], _, hwhole, h => ⟨hwhole _ (List.mem_singleton_self _) h.1 hnext, trivial⟩
  | i :: j :: items, hsame, hwhole, h => by
    have hmore : ItemsWhole (j :: items) rest := h.2
    refine ⟨hwhole i List.mem_cons_self h.1 ?_, ItemsWhole.map hnext
      (fun k hk ↦ hsame k (List.mem_cons_of_mem _ hk))
      (fun k hk ↦ hwhole k (List.mem_cons_of_mem _ hk)) hmore⟩
    rw [List.flatMap_cons, List.map_cons, List.flatMap_cons, List.append_assoc, List.append_assoc]
    exact hsame j (List.mem_cons_of_mem _ List.mem_cons_self) _ _

theorem ItemsWhole.edit (hE : E.Fits) (hnext : SameNext rest rest') {items : List ItemPhrase}
    (h : ItemsWhole items rest) : ItemsWhole (items.map (ItemPhrase.edit E)) rest' :=
  h.map hnext (fun i _ _ _ ↦ i.sameNext_edit) fun _ _ _ _ hi hnext ↦ hi.edit hE hnext

theorem flatMap_lexemes_edit (items : List ItemPhrase) :
    (items.map (ItemPhrase.edit E)).flatMap ItemPhrase.lexemes
      = (items.flatMap ItemPhrase.parts).flatMap E.part := by
  rw [List.flatMap_map, List.flatMap_assoc]
  exact List.flatMap_congr fun i _ ↦ i.lexemes_edit

theorem flatMap_items_parts (items : List ItemPhrase) :
    (items.flatMap ItemPhrase.parts).flatMap Part.lexemes = items.flatMap ItemPhrase.lexemes := by
  rw [List.flatMap_assoc]
  exact List.flatMap_congr fun i _ ↦ i.flatMap_parts

end CharacterScript
