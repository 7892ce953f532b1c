import CharacterScript.Proofs.Grammar.Files
import CharacterScript.Proofs.Grammar.Reach

/-!
# Statements without separators

Statements are written one after another with nothing between them, and reading gives them back: the
lexemes of a list of statements, in any nesting, are read as these statements, up to places and the
texts of calculations (`parseFile_separate`). One thing has to be avoided: a `return` without a
value takes a name or a call that follows it for its value (`stmtsSeparate`).

## What is written

`Stmt.Written` says which lexemes write a statement. Operands of operators and of `!` are in
parentheses there, so that the expression can be read back too, and the argument of a calculation is
any expression. Places are arbitrary throughout.

## How it is proved

A tree with a way to write it has a phrase with these lexemes (`Stmt.Written.exists_phrase`), and
phrases are read back. What is left is that each phrase is whole in front of the next: a statement
starts with a keyword or a name, no operator starts with either, and a name continues an
expression only behind a bare `return`.
-/

namespace CharacterScript

/-! ## Trees without places

What is read back can be the same only up to what the lexemes do not say: where they stand, and
how the argument of a calculation was spelled. -/

mutual

/-- The expression without places and without the texts of calculations. -/
def Expr.bare : Expr → Expr
  | .number value _ => .number value ⟨0, 0⟩
  | .name s fromTarget _ => .name s fromTarget ⟨0, 0⟩
  | .call c _ => .call c.bare ⟨0, 0⟩
  | .calculation _ _ => .calculation "" ⟨0, 0⟩
  | .not inner _ => .not inner.bare ⟨0, 0⟩
  | .binary op left right _ => .binary op left.bare right.bare ⟨0, 0⟩

def Call.bare : Call → Call
  | .mk name _ collapse args _ => .mk name ⟨0, 0⟩ collapse (bareArgs args) ⟨0, 0⟩

def Arg.bare : Arg → Arg
  | .expr e => .expr e.bare
  | .text value _ => .text value ⟨0, 0⟩

def bareArgs : List Arg → List Arg
  | [] => []
  | arg :: rest => arg.bare :: bareArgs rest

end

mutual

def Stmt.bare : Stmt → Stmt
  | .break_ _ => .break_ ⟨0, 0⟩
  | .call c => .call c.bare
  | .let_ s _ value _ => .let_ s ⟨0, 0⟩ value.bare ⟨0, 0⟩
  | .assign s _ op value _ => .assign s ⟨0, 0⟩ op value.bare ⟨0, 0⟩
  | .return_ (some value) _ => .return_ (some value.bare) ⟨0, 0⟩
  | .return_ none _ => .return_ none ⟨0, 0⟩
  | .loop body _ => .loop body.bare ⟨0, 0⟩
  | .if_ cond body rest _ => .if_ cond.bare body.bare rest.bare ⟨0, 0⟩
  | .lone s _ => .lone s ⟨0, 0⟩

def Block.bare : Block → Block
  | .mk stmts _ => .mk (bareStmts stmts) ⟨0, 0⟩

def bareStmts : List Stmt → List Stmt
  | [] => []
  | s :: rest => s.bare :: bareStmts rest

def Branches.bare : Branches → Branches
  | .done => .done
  | .else_ body => .else_ body.bare
  | .elif cond body rest => .elif cond.bare body.bare rest.bare

end

@[simp] theorem Expr.bare_withSpan (e : Expr) (span : Span) : (e.withSpan span).bare = e.bare := by
  cases e <;> simp [Expr.withSpan, Expr.bare]

/-! ## Writing expressions -/

/-- The lexemes in parentheses. -/
def InParens (ls whole : List Lexeme) : Prop :=
  ∃ opening closing, whole = Punct.openParen.at opening :: (ls ++ [Punct.closeParen.at closing])

mutual

/-- The lexemes write the expression, every operand of an operator and of `!` in parentheses. -/
def Expr.Written : Expr → List Lexeme → Prop
  | .number value _, ls =>
    (∃ span, ls = [⟨.number value, span⟩]) ∨
      ∃ (v : UInt32) (span : Span), Float.ofNat v.toNat = value ∧ ls = [⟨.hex v, span⟩]
  | .name s false _, ls => ∃ span, ls = [⟨.name s, span⟩]
  | .name s true _, ls => ∃ sign span, ls = [Punct.at_.at sign, ⟨.name s, span⟩]
  | .call c _, ls => c.Written ls
  | .calculation _ _, ls =>
    ∃ (p : Phrase) (word : Span) (whole : List Lexeme), p.Leveled 0 ∧ InParens p.lexemes whole ∧
      ls = ⟨.calcWord, word⟩ :: whole
  | .not inner _, ls =>
    ∃ sign ms whole, inner.Written ms ∧ InParens ms whole ∧ ls = Punct.bang.at sign :: whole
  | .binary op left right _, ls =>
    ∃ sign ms ns whole whole', left.Written ms ∧ InParens ms whole ∧ right.Written ns ∧
      InParens ns whole' ∧ ls = whole ++ op.punct.at sign :: whole'

def Call.Written : Call → List Lexeme → Prop
  | .mk name _ collapse args _, ls =>
    ∃ (head : CallHead) (ms : List Lexeme) (closing : Span), head.name = name ∧
      head.collapse.isSome = collapse ∧ argsWritten args ms ∧
      ls = head.lexemes ++ (ms ++ [Punct.closeParen.at closing])

def Arg.Written : Arg → List Lexeme → Prop
  | .expr e, ls => e.Written ls
  | .text value _, ls => ∃ span, ls = [⟨.text value, span⟩]

def argsWritten : List Arg → List Lexeme → Prop
  | [], ls => ls = []
  | [arg], ls => arg.Written ls
  | arg :: next :: rest, ls =>
    ∃ ms comma ns, arg.Written ms ∧ argsWritten (next :: rest) ns ∧
      ls = ms ++ Punct.comma.at comma :: ns

end

/-! ## Writing statements -/

mutual

/-- The lexemes write the statement. -/
def Stmt.Written : Stmt → List Lexeme → Prop
  | .break_ _, ls => ∃ word, ls = [Keyword.break_.at word]
  | .call c, ls => c.Written ls
  | .let_ s _ value _, ls =>
    ∃ word nameSpan sign ms, value.Written ms ∧
      ls = Keyword.let_.at word :: ⟨.name s, nameSpan⟩ :: Punct.eq.at sign :: ms
  | .assign s _ none value _, ls =>
    ∃ nameSpan sign ms, value.Written ms ∧ ls = ⟨.name s, nameSpan⟩ :: Punct.eq.at sign :: ms
  | .assign s _ (some op) value _, ls =>
    BinOp.ofCompound? op.punct = some op ∧
      ∃ nameSpan place sign ms, value.Written ms ∧
        ls = ⟨.name s, nameSpan⟩ :: op.punct.at place :: Punct.eq.at sign :: ms
  | .return_ none _, ls => ∃ word, ls = [Keyword.return_.at word]
  | .return_ (some value) _, ls => ∃ word ms, value.Written ms ∧ ls = Keyword.return_.at word :: ms
  | .loop body _, ls => ∃ word ms, body.Written ms ∧ ls = Keyword.loop.at word :: ms
  | .if_ cond body rest _, ls =>
    ∃ word ms ns os, cond.Written ms ∧ body.Written ns ∧ rest.Written os ∧
      ls = Keyword.if_.at word :: (ms ++ (ns ++ os))
  | .lone s _, ls => ∃ span, ls = [⟨.name s, span⟩]

def Block.Written : Block → List Lexeme → Prop
  | .mk stmts _, ls =>
    ∃ opening ms closing, stmtsWritten stmts ms ∧
      ls = Punct.openBrace.at opening :: (ms ++ [Punct.closeBrace.at closing])

/-- The lexemes write the statements one after another. -/
def stmtsWritten : List Stmt → List Lexeme → Prop
  | [], ls => ls = []
  | s :: rest, ls => ∃ ms ns, s.Written ms ∧ stmtsWritten rest ns ∧ ls = ms ++ ns

def Branches.Written : Branches → List Lexeme → Prop
  | .done, ls => ls = []
  | .else_ body, ls => ∃ word ms, body.Written ms ∧ ls = Keyword.else_.at word :: ms
  | .elif cond body rest, ls =>
    ∃ word ms ns os, cond.Written ms ∧ body.Written ns ∧ rest.Written os ∧
      ls = Keyword.elif.at word :: (ms ++ (ns ++ os))

end

/-! ## What must not follow a `return`

This is about two neighbours in a list of statements, and about all lists inside of blocks. -/

/-- Whether a statement starts with a name or with `collapse`. -/
def Stmt.startsWithName : Stmt → Bool
  | .call _ | .assign .. | .lone .. => true
  | _ => false

/-- Whether a statement is a `return` without a value. -/
def Stmt.isBareReturn : Stmt → Bool
  | .return_ none _ => true
  | _ => false

mutual

def Stmt.Separate : Stmt → Prop
  | .loop body _ => body.Separate
  | .if_ _ body rest _ => body.Separate ∧ rest.Separate
  | _ => True

def Block.Separate : Block → Prop
  | .mk stmts _ => stmtsSeparate stmts

/-- In this list and in every block inside, no `return` without a value is directly followed by a
statement that starts with a name or with `collapse`. -/
def stmtsSeparate : List Stmt → Prop
  | [] => True
  | s :: rest =>
    (s.isBareReturn = true → rest.head?.any Stmt.startsWithName = false) ∧ s.Separate ∧
      stmtsSeparate rest

def Branches.Separate : Branches → Prop
  | .done => True
  | .else_ body => body.Separate
  | .elif _ body rest => body.Separate ∧ rest.Separate

end

/-! ## Expressions are read back -/

/-- An expression that is written in parentheses is an operand. -/
theorem InParens.exists_paren {p : Phrase} {whole : List Lexeme} (h : InParens p.lexemes whole)
    (hlevel : p.Leveled 0) (hclosed : p.Closed) :
    ∃ q : Phrase, q.lexemes = whole ∧ (∀ k, q.Leveled k) ∧ (∀ rest, q.Settled rest) ∧
      ∀ source, (q.tree source).bare = (p.tree source).bare := by
  obtain ⟨opening, closing, rfl⟩ := h
  exact ⟨.paren opening p closing, rfl, fun _ ↦ hlevel,
    fun rest ↦ hclosed _ (ended_closeParen closing rest), fun source ↦ Expr.bare_withSpan _ _⟩

mutual

theorem Expr.Written.exists_phrase : ∀ {e : Expr} {ls : List Lexeme}, e.Written ls →
    ∃ p : Phrase, p.lexemes = ls ∧ p.Leveled 0 ∧ p.Closed ∧
      ∀ source, (p.tree source).bare = e.bare
  | .number value _, ls, h => by
    obtain ⟨span, rfl⟩ | ⟨v, span, rfl, rfl⟩ := h
    · exact ⟨.number value span, rfl, trivial, fun _ _ ↦ trivial, fun _ ↦ rfl⟩
    · exact ⟨.hex v span, rfl, trivial, fun _ _ ↦ trivial, fun _ ↦ rfl⟩
  | .name s false _, ls, h => by
    obtain ⟨span, rfl⟩ := h
    exact ⟨.name s span, rfl, trivial, fun _ hrest ↦ hrest.noOpening, fun _ ↦ rfl⟩
  | .name s true _, ls, h => by
    obtain ⟨sign, span, rfl⟩ := h
    exact ⟨.target sign s span, rfl, trivial, fun _ _ ↦ trivial, fun _ ↦ rfl⟩
  | .call c _, ls, h => by
    obtain ⟨p, rfl, hlevel, hsettled, hbare⟩ := Call.Written.exists_phrase (c := c) h
    refine ⟨.call p, rfl, hlevel, fun rest _ ↦ hsettled rest, fun source ↦ ?_⟩
    rw [Phrase.tree, Expr.bare, Expr.bare, hbare]
  | .calculation _ _, ls, h => by
    obtain ⟨p, word, whole, hlevel, ⟨opening, closing, rfl⟩, rfl⟩ := h
    obtain ⟨q, hlex, hlevel', hclosed⟩ := hlevel.exists_closed
    refine ⟨.calculation word opening q closing, ?_, hlevel',
      fun rest _ ↦ hclosed _ (ended_closeParen closing rest), fun _ ↦ rfl⟩
    rw [Phrase.lexemes, hlex]
  | .not inner _, ls, h => by
    obtain ⟨sign, ms, whole, hinner, hparens, rfl⟩ := h
    obtain ⟨p, rfl, hlevel, hclosed, hbare⟩ := Expr.Written.exists_phrase hinner
    obtain ⟨q, rfl, hlevel', hsettled, hbare'⟩ := hparens.exists_paren hlevel hclosed
    refine ⟨.not sign q, rfl, hlevel' 0, fun rest hrest ↦ ⟨hrest.stops, hsettled rest⟩,
      fun source ↦ ?_⟩
    rw [Phrase.tree, Expr.bare, Expr.bare, hbare', hbare]
  | .binary op left right _, ls, h => by
    obtain ⟨sign, ms, ns, whole, whole', hleft, hparens, hright, hparens', rfl⟩ := h
    obtain ⟨p, rfl, hlevel, hclosed, hbare⟩ := Expr.Written.exists_phrase hleft
    obtain ⟨q, rfl, hlevel', hclosed', hbare'⟩ := Expr.Written.exists_phrase hright
    obtain ⟨p', rfl, hp, hpsettled, hpbare⟩ := hparens.exists_paren hlevel hclosed
    obtain ⟨q', rfl, hq, hqsettled, hqbare⟩ := hparens'.exists_paren hlevel' hclosed'
    refine ⟨.binary p' op sign q', rfl, ⟨Nat.zero_le _, hp _, hq _⟩,
      fun rest _ ↦ ⟨hpsettled _, hqsettled rest⟩, fun source ↦ ?_⟩
    rw [Phrase.tree, Expr.join, Expr.bare, Expr.bare, hpbare, hbare, hqbare, hbare']

theorem Call.Written.exists_phrase : ∀ {c : Call} {ls : List Lexeme}, c.Written ls →
    ∃ p : CallPhrase, p.lexemes = ls ∧ p.Leveled ∧ (∀ rest, p.Settled rest) ∧
      ∀ source, (p.tree source).bare = c.bare
  | .mk name nameSpan collapse [] span, ls, h => by
    obtain ⟨head, ms, closing, rfl, rfl, rfl, rfl⟩ := h
    exact ⟨.empty head closing, rfl, trivial, fun _ ↦ trivial, fun _ ↦ rfl⟩
  | .mk name nameSpan collapse (arg :: rest) span, ls, h => by
    obtain ⟨head, ms, closing, rfl, rfl, hargs, rfl⟩ := h
    obtain ⟨p, rfl, hlevel, hsettled, hbare⟩ :=
      argsWritten_exists_phrase hargs (List.cons_ne_nil arg rest)
    refine ⟨.full head p closing, rfl, hlevel,
      fun rest ↦ hsettled _ (ended_closeParen closing rest),
      fun source ↦ ?_⟩
    rw [CallPhrase.tree, Call.bare, Call.bare, hbare]

theorem Arg.Written.exists_phrase : ∀ {a : Arg} {ls : List Lexeme}, a.Written ls →
    ∃ p : ArgPhrase, p.lexemes = ls ∧ p.Leveled ∧ (∀ rest, Ended rest → p.Settled rest) ∧
      ∀ source, (p.tree source).bare = a.bare
  | .expr e, ls, h => by
    obtain ⟨p, rfl, hlevel, hclosed, hbare⟩ := Expr.Written.exists_phrase (e := e) h
    exact ⟨.expr p, rfl, hlevel, hclosed, fun source ↦ congrArg Arg.expr (hbare source)⟩
  | .text value _, ls, h => by
    obtain ⟨span, rfl⟩ := h
    exact ⟨.text value span, rfl, trivial, fun _ _ ↦ trivial, fun _ ↦ rfl⟩

theorem argsWritten_exists_phrase : ∀ {args : List Arg} {ls : List Lexeme},
    argsWritten args ls → args ≠ [] →
    ∃ p : ArgsPhrase, p.lexemes = ls ∧ p.Leveled ∧ (∀ rest, Ended rest → p.Settled rest) ∧
      ∀ source, bareArgs (p.trees source) = bareArgs args
  | [], _, _, hne => absurd rfl hne
  | [arg], ls, h, _ => by
    obtain ⟨p, rfl, hlevel, hsettled, hbare⟩ := Arg.Written.exists_phrase (a := arg) h
    refine ⟨.last p, rfl, hlevel, hsettled, fun source ↦ ?_⟩
    rw [ArgsPhrase.trees, bareArgs, hbare]
    rfl
  | arg :: next :: rest, ls, h, _ => by
    obtain ⟨ms, comma, ns, harg, hrest, rfl⟩ := h
    obtain ⟨p, rfl, hlevel, hsettled, hbare⟩ := Arg.Written.exists_phrase harg
    obtain ⟨q, rfl, hlevel', hsettled', hbare'⟩ :=
      argsWritten_exists_phrase hrest (List.cons_ne_nil next rest)
    refine ⟨.more p comma q, rfl, ⟨hlevel, hlevel'⟩,
      fun rest hrest ↦ ⟨hsettled _ (ended_comma comma _), hsettled' rest hrest⟩, fun source ↦ ?_⟩
    rw [ArgsPhrase.trees, bareArgs, hbare, hbare']
    rfl

end

/-! ## Where a statement ends

A boundary is a place where a statement starts or a block ends. Nothing that was begun in front of
it goes on behind it. -/

/-- Another statement comes next, or the end of the block. -/
def Boundary (rest : List Lexeme) : Prop :=
  startsStmt rest = true ∨ ∃ closing more, rest = Punct.closeBrace.at closing :: more

namespace Boundary

variable {rest : List Lexeme} (h : Boundary rest)

include h

theorem ended : Ended rest := by
  obtain h | ⟨closing, more, rfl⟩ := h
  · rw [startsStmt.eq_def] at h
    split at h
    all_goals first | exact ended_cons nofun nofun | cases h
  · exact ended_cons (by simp) (by rintro _ ⟨⟩; rfl)

theorem noBranch : NoBranch rest := by
  obtain h | ⟨closing, more, rfl⟩ := h
  · rw [startsStmt.eq_def] at h
    split at h
    all_goals trivial
  · trivial

theorem assignment?_eq_none : Parser.assignment? rest = none := by
  obtain h | ⟨closing, more, rfl⟩ := h
  · rw [startsStmt.eq_def] at h
    split at h
    all_goals first | rfl | cases h
  · rw [Parser.assignment?.eq_def]
    split
    next heq => cases heq
    next heq =>
      cases heq
      rfl
    · rfl

end Boundary

theorem StmtsPhrase.boundary (p : StmtsPhrase) (closing : Span) (rest : List Lexeme) :
    Boundary (p.lexemes ++ Punct.closeBrace.at closing :: rest) := by
  cases p with
  | nil => exact .inr ⟨closing, rest, rfl⟩
  | cons s more =>
    rw [StmtsPhrase.lexemes, List.append_assoc]
    exact .inl (s.startsStmt_lexemes _)

theorem BlockPhrase.ended (b : BlockPhrase) (rest : List Lexeme) : Ended (b.lexemes ++ rest) := by
  obtain ⟨opening, stmts, closing⟩ := b
  exact ended_cons (by simp) (by rintro _ ⟨⟩; rfl)

/-! ## Statements are read back -/

/-- A statement that does not start with a name or with `collapse` is no value for a `return`. -/
theorem Stmt.Written.startsExpr_eq_false {s : Stmt} {ls : List Lexeme} (h : s.Written ls)
    (hs : s.startsWithName = false) (rest : List Lexeme) :
    Parser.startsExpr (ls ++ rest) = false := by
  cases s with
  | call | assign | lone => cases hs
  | break_ span =>
    obtain ⟨word, rfl⟩ := h
    rfl
  | let_ =>
    obtain ⟨word, nameSpan, sign, ms, -, rfl⟩ := h
    rfl
  | return_ value span =>
    cases value with
    | none =>
      obtain ⟨word, rfl⟩ := h
      rfl
    | some value =>
      obtain ⟨word, ms, -, rfl⟩ := h
      rfl
  | loop body span =>
    obtain ⟨word, ms, -, rfl⟩ := h
    rfl
  | if_ cond body rest span =>
    obtain ⟨word, ms, ns, os, -, -, -, rfl⟩ := h
    rfl

/-- Nothing that a `return` could take for its value follows the end of a block or a statement that
does not start with a name. -/
theorem stmtsWritten_startsExpr {ss : List Stmt} {ls : List Lexeme} (h : stmtsWritten ss ls)
    (hss : ss.head?.any Stmt.startsWithName = false) (closing : Span) (rest : List Lexeme) :
    Parser.startsExpr (ls ++ Punct.closeBrace.at closing :: rest) = false := by
  cases ss with
  | nil =>
    rw [stmtsWritten] at h
    subst h
    rfl
  | cons s ss =>
    rw [stmtsWritten] at h
    obtain ⟨ms, ns, hs, -, rfl⟩ := h
    rw [List.append_assoc]
    exact hs.startsExpr_eq_false (by simpa using hss) _

mutual

theorem Stmt.Written.exists_phrase : ∀ {s : Stmt} {ls : List Lexeme}, s.Written ls → s.Separate →
    ∃ p : StmtPhrase, p.lexemes = ls ∧ (∀ source, (p.tree source).bare = s.bare) ∧
      ∀ rest, Boundary rest → (s.isBareReturn = true → Parser.startsExpr rest = false) →
        p.Whole rest
  | .break_ _, ls, h, _ => by
    obtain ⟨word, rfl⟩ := h
    exact ⟨.break_ word, rfl, fun _ ↦ rfl, fun _ _ _ ↦ trivial⟩
  | .call c, ls, h, _ => by
    obtain ⟨p, rfl, hlevel, hsettled, hbare⟩ := Call.Written.exists_phrase (c := c) h
    exact ⟨.call p, rfl, fun source ↦ congrArg Stmt.call (hbare source),
      fun rest _ _ ↦ ⟨hlevel, hsettled rest⟩⟩
  | .let_ s _ value _, ls, h, _ => by
    obtain ⟨word, nameSpan, sign, ms, hvalue, rfl⟩ := h
    obtain ⟨p, rfl, hlevel, hclosed, hbare⟩ := hvalue.exists_phrase
    refine ⟨.let_ word s nameSpan sign p, rfl, fun source ↦ ?_, fun rest hrest _ ↦
      ⟨hlevel, hclosed rest hrest.ended, hrest.ended.stops⟩⟩
    rw [StmtPhrase.tree, Stmt.bare, Stmt.bare, hbare]
  | .assign s _ none value _, ls, h, _ => by
    obtain ⟨nameSpan, sign, ms, hvalue, rfl⟩ := h
    obtain ⟨p, rfl, hlevel, hclosed, hbare⟩ := hvalue.exists_phrase
    refine ⟨.assign s nameSpan none sign p, rfl, fun source ↦ ?_, fun rest hrest _ ↦
      ⟨by simp, hlevel, hclosed rest hrest.ended, hrest.ended.stops⟩⟩
    rw [StmtPhrase.tree, Stmt.bare, Stmt.bare, hbare]
    rfl
  | .assign s _ (some op) value _, ls, h, _ => by
    obtain ⟨hop, nameSpan, place, sign, ms, hvalue, rfl⟩ := h
    obtain ⟨p, rfl, hlevel, hclosed, hbare⟩ := hvalue.exists_phrase
    refine ⟨.assign s nameSpan (some (op, place)) sign p, rfl, fun source ↦ ?_, fun rest hrest _ ↦
      ⟨?_, hlevel, hclosed rest hrest.ended, hrest.ended.stops⟩⟩
    · rw [StmtPhrase.tree, Stmt.bare, Stmt.bare, hbare]
      rfl
    · rintro _ ⟨⟩
      exact hop
  | .return_ none _, ls, h, _ => by
    obtain ⟨word, rfl⟩ := h
    exact ⟨.return_ word, rfl, fun _ ↦ rfl, fun rest _ hreturn ↦ hreturn rfl⟩
  | .return_ (some value) _, ls, h, _ => by
    obtain ⟨word, ms, hvalue, rfl⟩ := h
    obtain ⟨p, rfl, hlevel, hclosed, hbare⟩ := hvalue.exists_phrase
    refine ⟨.returnValue word p, rfl, fun source ↦ ?_, fun rest hrest _ ↦
      ⟨hlevel, hclosed rest hrest.ended, hrest.ended.stops⟩⟩
    rw [StmtPhrase.tree, Stmt.bare, Stmt.bare, hbare]
  | .loop body _, ls, h, hsep => by
    obtain ⟨word, ms, hbody, rfl⟩ := h
    obtain ⟨b, rfl, hbare, hwhole⟩ := Block.Written.exists_phrase hbody hsep
    refine ⟨.loop word b, rfl, fun source ↦ ?_, fun rest _ _ ↦ hwhole rest⟩
    rw [StmtPhrase.tree, Stmt.bare, Stmt.bare, hbare]
  | .if_ cond body more _, ls, h, hsep => by
    obtain ⟨word, ms, ns, os, hcond, hbody, hmore, rfl⟩ := h
    obtain ⟨p, rfl, hlevel, hclosed, hbare⟩ := hcond.exists_phrase
    obtain ⟨b, rfl, hbare', hwhole⟩ := Block.Written.exists_phrase hbody hsep.1
    obtain ⟨q, rfl, hbare'', hwhole'⟩ := Branches.Written.exists_phrase hmore hsep.2
    refine ⟨.if_ word p b q, rfl, fun source ↦ ?_, fun rest hrest _ ↦
      ⟨⟨hlevel, hclosed _ (b.ended _), (b.ended _).stops⟩, hwhole _, hwhole' rest hrest⟩⟩
    rw [StmtPhrase.tree, Stmt.bare, Stmt.bare, hbare, hbare', hbare'']
  | .lone s _, ls, h, _ => by
    obtain ⟨span, rfl⟩ := h
    exact ⟨.lone s span, rfl, fun _ ↦ rfl, fun rest hrest _ ↦
      ⟨hrest.ended.noOpening, hrest.assignment?_eq_none⟩⟩

theorem Block.Written.exists_phrase : ∀ {b : Block} {ls : List Lexeme}, b.Written ls → b.Separate →
    ∃ p : BlockPhrase, p.lexemes = ls ∧ (∀ source, (p.tree source).bare = b.bare) ∧
      ∀ rest, p.Whole rest
  | .mk stmts _, ls, h, hsep => by
    obtain ⟨opening, ms, closing, hstmts, rfl⟩ := h
    obtain ⟨p, rfl, hbare, hwhole⟩ := stmtsWritten_exists_phrase hstmts hsep
    refine ⟨.mk opening p closing, rfl, fun source ↦ ?_, fun rest ↦ hwhole closing rest⟩
    rw [BlockPhrase.tree, Block.bare, Block.bare, hbare]

theorem stmtsWritten_exists_phrase : ∀ {ss : List Stmt} {ls : List Lexeme}, stmtsWritten ss ls →
    stmtsSeparate ss →
    ∃ p : StmtsPhrase, p.lexemes = ls ∧ (∀ source, bareStmts (p.trees source) = bareStmts ss) ∧
      ∀ closing rest, p.Whole (Punct.closeBrace.at closing :: rest)
  | [], ls, h, _ => by
    cases h
    exact ⟨.nil, rfl, fun _ ↦ rfl, fun _ _ ↦ trivial⟩
  | s :: ss, ls, h, hsep => by
    obtain ⟨ms, ns, hs, hss, rfl⟩ := h
    obtain ⟨p, rfl, hbare, hwhole⟩ := Stmt.Written.exists_phrase hs hsep.2.1
    obtain ⟨q, rfl, hbare', hwhole'⟩ := stmtsWritten_exists_phrase hss hsep.2.2
    refine ⟨.cons p q, rfl, fun source ↦ ?_, fun closing rest ↦ ⟨?_, hwhole' closing rest⟩⟩
    · rw [StmtsPhrase.trees, bareStmts, hbare, hbare']
      rfl
    · exact hwhole _ (q.boundary closing rest) fun hreturn ↦
        stmtsWritten_startsExpr hss (hsep.1 hreturn) closing rest

theorem Branches.Written.exists_phrase : ∀ {b : Branches} {ls : List Lexeme}, b.Written ls →
    b.Separate →
    ∃ p : BranchesPhrase, p.lexemes = ls ∧ (∀ source, (p.tree source).bare = b.bare) ∧
      ∀ rest, Boundary rest → p.Whole rest
  | .done, ls, h, _ => by
    cases h
    exact ⟨.done, rfl, fun _ ↦ rfl, fun _ hrest ↦ hrest.noBranch⟩
  | .else_ body, ls, h, hsep => by
    obtain ⟨word, ms, hbody, rfl⟩ := h
    obtain ⟨b, rfl, hbare, hwhole⟩ := Block.Written.exists_phrase hbody hsep
    exact ⟨.else_ word b, rfl, fun source ↦ congrArg Branches.else_ (hbare source),
      fun rest _ ↦ hwhole rest⟩
  | .elif cond body more, ls, h, hsep => by
    obtain ⟨word, ms, ns, os, hcond, hbody, hmore, rfl⟩ := h
    obtain ⟨p, rfl, hlevel, hclosed, hbare⟩ := hcond.exists_phrase
    obtain ⟨b, rfl, hbare', hwhole⟩ := Block.Written.exists_phrase hbody hsep.1
    obtain ⟨q, rfl, hbare'', hwhole'⟩ := Branches.Written.exists_phrase hmore hsep.2
    refine ⟨.elif word p b q, rfl, fun source ↦ ?_, fun rest hrest ↦
      ⟨⟨hlevel, hclosed _ (b.ended _), (b.ended _).stops⟩, hwhole _, hwhole' rest hrest⟩⟩
    rw [BranchesPhrase.tree, Branches.bare, Branches.bare, hbare, hbare', hbare'']

end

/-! ## The body of a script -/

/-- Statements that are written without separators are read back, whatever they are and however
deeply they are nested. -/
theorem parseFile_separate {stmts : List Stmt} {ls : List Lexeme} (hwritten : stmtsWritten stmts ls)
    (hseparate : stmtsSeparate stmts) (source name : String)
    (word nameSpan opening closing start stop eof : Span) :
    ∃ d : CallableDecl,
      parseFile source (Keyword.script.at word :: ⟨.name name, nameSpan⟩ ::
        Punct.openParen.at opening :: Punct.closeParen.at closing :: Punct.openBrace.at start ::
        (ls ++ [Punct.closeBrace.at stop, ⟨.eof, eof⟩])) = .ok [.callable d] ∧
      d.kind = .script ∧ d.name = name ∧ d.params = [] ∧
      bareStmts d.body.stmts = bareStmts stmts := by
  obtain ⟨p, rfl, hbare, hwhole⟩ := stmtsWritten_exists_phrase hwritten hseparate
  have hitem : ItemsWhole [.callable .script word name nameSpan (.empty opening closing)
      (.mk start p stop)] [⟨.eof, eof⟩] :=
    ⟨⟨.nil, hwhole _ _⟩, trivial⟩
  have hfile : parseFile source _ = .ok _ :=
    (parseFile_eq_ok_iff (noEof_flatMap _)).2 ⟨_, rfl, hitem, rfl⟩
  refine ⟨⟨.script, name, nameSpan, [], .mk (p.trees source) (start.merge stop),
    word.merge (start.merge stop)⟩, ?_, rfl, rfl, rfl, hbare source⟩
  refine Eq.trans ?_ hfile
  simp [ItemPhrase.lexemes, ParamsPhrase.lexemes, BlockPhrase.lexemes, CallableKind.keyword]

namespace Sample

/-- The statements `a`, `return`, an `if` with two more branches, and `x += 1`, with nothing said
about their places. -/
def nestedStmts : List Stmt :=
  let at_ : Span := ⟨0, 0⟩
  [.lone "a" at_, .return_ none at_,
    .if_ (.not (.name "a" false at_) at_) (.mk [.return_ (some (.name "b" true at_)) at_] at_)
      (.elif (.calculation "" at_) (.mk [.break_ at_] at_)
        (.else_ (.mk [.loop (.mk [] at_) at_] at_))) at_,
    .assign "x" at_ (some .add) (.number 1 at_) at_]

/-- Their lexemes, all at one place. -/
def nestedLexemes : List Lexeme :=
  ([.name "a", .keyword .return_,
    .keyword .if_, .punct .bang, .punct .openParen, .name "a", .punct .closeParen,
    .punct .openBrace, .keyword .return_, .punct .at_, .name "b", .punct .closeBrace,
    .keyword .elif, .calcWord, .punct .openParen, .name "a", .punct .plus, .punct .bang, .name "b",
    .punct .closeParen, .punct .openBrace, .keyword .break_, .punct .closeBrace,
    .keyword .else_, .punct .openBrace, .keyword .loop, .punct .openBrace, .punct .closeBrace,
    .punct .closeBrace,
    .name "x", .punct .plus, .punct .eq, .number 1] : List Token).map (⟨·, ⟨0, 0⟩⟩)

theorem nested_written : stmtsWritten nestedStmts nestedLexemes := by
  have hcalc : (Phrase.binary (.name "a" ⟨0, 0⟩) .add ⟨0, 0⟩
      (.not ⟨0, 0⟩ (.name "b" ⟨0, 0⟩))).Leveled 0 := ⟨Nat.zero_le _, trivial, trivial⟩
  have hcond : (Expr.not (.name "a" false ⟨0, 0⟩) ⟨0, 0⟩).Written _ :=
    ⟨⟨0, 0⟩, _, _, ⟨⟨0, 0⟩, rfl⟩, ⟨⟨0, 0⟩, ⟨0, 0⟩, rfl⟩, rfl⟩
  have hcond' : (Expr.calculation "" ⟨0, 0⟩).Written _ :=
    ⟨_, ⟨0, 0⟩, _, hcalc, ⟨⟨0, 0⟩, ⟨0, 0⟩, rfl⟩, rfl⟩
  have hthen : (Block.mk [.return_ (some (.name "b" true ⟨0, 0⟩)) ⟨0, 0⟩] ⟨0, 0⟩).Written _ :=
    ⟨⟨0, 0⟩, _, ⟨0, 0⟩, ⟨_, _, ⟨⟨0, 0⟩, _, ⟨⟨0, 0⟩, ⟨0, 0⟩, rfl⟩, rfl⟩, rfl, rfl⟩, rfl⟩
  have hbreak : (Block.mk [.break_ ⟨0, 0⟩] ⟨0, 0⟩).Written _ :=
    ⟨⟨0, 0⟩, _, ⟨0, 0⟩, ⟨_, _, ⟨⟨0, 0⟩, rfl⟩, rfl, rfl⟩, rfl⟩
  have hloop : (Block.mk [.loop (.mk [] ⟨0, 0⟩) ⟨0, 0⟩] ⟨0, 0⟩).Written _ :=
    ⟨⟨0, 0⟩, _, ⟨0, 0⟩, ⟨_, _, ⟨⟨0, 0⟩, _, ⟨⟨0, 0⟩, _, ⟨0, 0⟩, rfl, rfl⟩, rfl⟩, rfl, rfl⟩, rfl⟩
  exact ⟨_, _, ⟨⟨0, 0⟩, rfl⟩, ⟨_, _, ⟨⟨0, 0⟩, rfl⟩, ⟨_, _,
    ⟨⟨0, 0⟩, _, _, _, hcond, hthen, ⟨⟨0, 0⟩, _, _, _, hcond', hbreak, ⟨⟨0, 0⟩, _, hloop, rfl⟩, rfl⟩,
      rfl⟩,
    ⟨_, _, ⟨rfl, ⟨0, 0⟩, ⟨0, 0⟩, ⟨0, 0⟩, _, .inl ⟨⟨0, 0⟩, rfl⟩, rfl⟩, rfl, rfl⟩, rfl⟩, rfl⟩, rfl⟩

theorem nested_separate : stmtsSeparate nestedStmts := by
  simp [nestedStmts, stmtsSeparate, Stmt.Separate, Block.Separate, Branches.Separate,
    Stmt.startsWithName, Stmt.isBareReturn]

end Sample

/-- The condition holds where an `if` follows a `return`, and the statements come back. -/
theorem nestedStmts_read_back :
    stmtsWritten Sample.nestedStmts Sample.nestedLexemes ∧ stmtsSeparate Sample.nestedStmts ∧
    ∃ d : CallableDecl,
      parseFile "" (Keyword.script.at ⟨0, 6⟩ :: ⟨.name "main", ⟨7, 11⟩⟩ ::
        Punct.openParen.at ⟨11, 12⟩ :: Punct.closeParen.at ⟨12, 13⟩ ::
          Punct.openBrace.at ⟨14, 15⟩ ::
        (Sample.nestedLexemes ++ [Punct.closeBrace.at ⟨20, 21⟩, ⟨.eof, ⟨21, 21⟩⟩])) =
        .ok [.callable d] ∧
      d.kind = .script ∧ d.name = "main" ∧ d.params = [] ∧
      bareStmts d.body.stmts = bareStmts Sample.nestedStmts :=
  ⟨Sample.nested_written, Sample.nested_separate,
    parseFile_separate Sample.nested_written Sample.nested_separate "" "main" ⟨0, 6⟩ ⟨7, 11⟩ ⟨11,
      12⟩ ⟨12, 13⟩ ⟨14, 15⟩ ⟨20, 21⟩ ⟨21, 21⟩⟩

end CharacterScript
