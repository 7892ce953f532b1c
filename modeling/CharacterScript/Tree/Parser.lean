import CharacterScript.Tree

/-!
# Reading syntax trees

A recursive reader of lexemes. Every reader takes the lexemes still ahead and gives what it read
together with those it left; the first lexeme that fits nowhere ends the reading, and the error says
what was wanted there.

## Precedence

Binary operators have ten levels of precedence and associate to the left. `Parser.expr` reads an
operand first and then, from the tightest level outwards, everything that continues it at that
level: an expression of level `k` is an expression of level `k + 1` followed by operators of level
`k` with their operands. The operand of `!` is a whole expression, so `!` reaches as far right as it
can.

## The steps are bounded

The readers that call each other are bounded by a count of steps. Each step either consumes a lexeme
or goes to a reader that does, so a bound of four steps per lexeme is never reached.

## No separators

Statements follow each other with nothing in between. A statement ends where it cannot go on, and
that is never in doubt but for a `return`, which takes a value if one can start there.
-/

namespace CharacterScript

/-- What was wanted where the reading stopped. -/
inductive Expected where
  | item | globalName | defineName | callableName | paramName | refsFirst
  | statement | variableName | callTarget | targetName
  | expression | endOfExpression
  | token (t : Token)

def Expected.message : Expected → String
  | item => "expected 'script', 'fn', 'global' or '#define'"
  | globalName => "expected a global name"
  | defineName => "expected a define name"
  | callableName => "expected a name"
  | paramName => "expected a parameter name"
  | refsFirst => "reference parameters must come before value parameters"
  | statement => "expected a statement"
  | variableName => "expected a variable name"
  | callTarget => "expected a call target"
  | targetName => "expected an identifier after '@'"
  | expression => "expected an expression"
  | endOfExpression => "expected end of expression"
  | token t => "expected '" ++ t.describe ++ "'"

/-- Why tokens cannot be read as a file. -/
structure SyntaxError where
  /-- What could have gone on there. -/
  expected : Expected
  /-- The token that stands there instead. -/
  found : Token
  /-- Where that token stands. -/
  span : Span

def SyntaxError.message (e : SyntaxError) : String :=
  e.expected.message ++ ", found '" ++ e.found.describe ++ "'"

namespace Parser

/-- A value read and the lexemes left over. -/
abbrev Read (α : Type) := α × List Lexeme

/-! ## One lexeme

The list of lexemes ends with a mark of its own, and no reader consumes that. So there is always a
lexeme to look at, and to point at in an error. -/

/-- The error for the next lexeme. -/
def fail {α : Type} (expected : Expected) : List Lexeme → Except SyntaxError α
  | l :: _ => .error ⟨expected, l.token, l.span⟩
  | [] => .error ⟨expected, .eof, ⟨0, 0⟩⟩

/-- The place of the next lexeme. -/
def here : List Lexeme → Span
  | l :: _ => l.span
  | [] => ⟨0, 0⟩

/-- The given mark, and its place. -/
def mark (p : Punct) : List Lexeme → Except SyntaxError (Read Span)
  | ⟨.punct p', span⟩ :: ts =>
    if p' = p then .ok (span, ts) else fail (.token (.punct p)) (⟨.punct p', span⟩ :: ts)
  | ts => fail (.token (.punct p)) ts

/-- A name, and its place. -/
def name (expected : Expected) : List Lexeme → Except SyntaxError (Read (String × Span))
  | ⟨.name s, span⟩ :: ts => .ok ((s, span), ts)
  | ts => fail expected ts

/-- The operator of the given level that comes next, if one does. -/
def operator? (level : Nat) : List Lexeme → Option (BinOp × List Lexeme)
  | ⟨.punct p, _⟩ :: ts =>
    match BinOp.ofPunct? p with
    | some op => if op.level = level then some (op, ts) else none
    | none => none
  | _ => none

/-- Whether the next lexeme can start an expression. A `return` takes a value exactly then. -/
def startsExpr : List Lexeme → Bool
  | ⟨.punct .bang, _⟩ :: _ | ⟨.punct .openParen, _⟩ :: _ | ⟨.punct .at_, _⟩ :: _
  | ⟨.hex _, _⟩ :: _ | ⟨.number _, _⟩ :: _ | ⟨.calcWord, _⟩ :: _
  | ⟨.keyword .collapse, _⟩ :: _ | ⟨.name _, _⟩ :: _ => true
  | _ => false

/-- A span of the text as it was written, without white space at its ends. -/
def captured (source : String) (span : Span) : String :=
  String.ofList (trim (span.slice source).toList)

/-! ## Expressions

`Parser.climb` goes through the levels from the tightest one outwards. With the operand of the
tightest level in hand, each level takes what continues it and hands the result to the next. -/

/-- Continues an operand through `n` levels, the tightest first and level `k` last. -/
def climb (chain : Nat → Expr → List Lexeme → Except SyntaxError (Read Expr)) (k : Nat) :
    Nat → Expr → List Lexeme → Except SyntaxError (Read Expr)
  | 0, left, ts => .ok (left, ts)
  | n + 1, left, ts => do
    let (left, ts) ← chain (k + n) left ts
    climb chain k n left ts

mutual

/-- An expression of level `k`. -/
def expr (source : String) : Nat → Nat → List Lexeme → Except SyntaxError (Read Expr)
  | 0, _, ts => fail .expression ts
  | fuel + 1, k, ts => do
    let (left, ts) ← atom source fuel ts
    climb (chain source fuel) k (BinOp.levels - k) left ts

/-- What continues `left` by operators of one level. -/
def chain (source : String) : Nat → Nat → Expr → List Lexeme → Except SyntaxError (Read Expr)
  | 0, _, _, ts => fail .expression ts
  | fuel + 1, level, left, ts =>
    match operator? level ts with
    | none => .ok (left, ts)
    | some (op, ts) => do
      let (right, ts) ← expr source fuel (level + 1) ts
      chain source fuel level (.join op left right) ts

/-- An operand. -/
def atom (source : String) : Nat → List Lexeme → Except SyntaxError (Read Expr)
  | 0, ts => fail .expression ts
  | fuel + 1, ts =>
    match ts with
    | ⟨.punct .bang, span⟩ :: ts => do
      let (inner, ts) ← expr source fuel 0 ts
      .ok (.not inner (span.merge inner.span), ts)
    | ⟨.punct .openParen, span⟩ :: ts => do
      let (inner, ts) ← expr source fuel 0 ts
      let (close, ts) ← mark .closeParen ts
      .ok (inner.withSpan (span.merge close), ts)
    | ⟨.hex value, span⟩ :: ts => .ok (.number (Float.ofNat value.toNat) span, ts)
    | ⟨.number value, span⟩ :: ts => .ok (.number value span, ts)
    | ⟨.calcWord, span⟩ :: ts => do
      let (opening, ts) ← mark .openParen ts
      let (_, ts) ← expr source fuel 0 ts
      let (close, ts) ← mark .closeParen ts
      .ok (.calculation (captured source ⟨opening.stop, close.start⟩) (span.merge close), ts)
    | ⟨.keyword .collapse, _⟩ :: _ => do
      let (c, ts) ← call source fuel ts
      .ok (.call c c.span, ts)
    | ⟨.name _, _⟩ :: ⟨.punct .openParen, _⟩ :: _ => do
      let (c, ts) ← call source fuel ts
      .ok (.call c c.span, ts)
    | ⟨.name s, span⟩ :: ts => .ok (.name s false span, ts)
    | ⟨.punct .at_, span⟩ :: ts => do
      let ((s, nameSpan), ts) ← name .targetName ts
      .ok (.name s true (span.merge nameSpan), ts)
    | ts => fail .expression ts

/-- A call, with `collapse` in front or not. -/
def call (source : String) : Nat → List Lexeme → Except SyntaxError (Read Call)
  | 0, ts => fail .callTarget ts
  | fuel + 1, ts => do
    let start := here ts
    let (collapse, ts) := match ts with
      | ⟨.keyword .collapse, _⟩ :: ts => (true, ts)
      | ts => (false, ts)
    let ((s, nameSpan), ts) ← name .callTarget ts
    let (_, ts) ← mark .openParen ts
    let (args, ts) ← match ts with
      | ⟨.punct .closeParen, _⟩ :: _ => .ok ([], ts)
      | ts => args source fuel [] ts
    let (close, ts) ← mark .closeParen ts
    .ok (.mk s nameSpan collapse args (start.merge close), ts)

/-- Arguments with commas between them; `done` holds those already read, last one first. -/
def args (source : String) : Nat → List Arg → List Lexeme → Except SyntaxError (Read (List Arg))
  | 0, _, ts => fail .expression ts
  | fuel + 1, done, ts => do
    let (arg, ts) ← match ts with
      | ⟨.text value, span⟩ :: ts => .ok (.text value span, ts)
      | ts => do
        let (e, ts) ← expr source fuel 0 ts
        .ok (.expr e, ts)
    match ts with
    | ⟨.punct .comma, _⟩ :: ts => args source fuel (arg :: done) ts
    | ts => .ok ((arg :: done).reverse, ts)

end

/-! ## Statements

The first lexeme decides which statement it is, but for a name, where the second one does. -/

/-- The operator of `x op= …`, or none for `x = …`, when the lexemes after a name say so; with the
lexemes after the operator. -/
def assignment? : List Lexeme → Option (Option BinOp × List Lexeme)
  | ⟨.punct .eq, span⟩ :: ts => some (none, ⟨.punct .eq, span⟩ :: ts)
  | ⟨.punct p, _⟩ :: ⟨.punct .eq, span⟩ :: ts =>
    (BinOp.ofCompound? p).map fun op ↦ (some op, ⟨.punct .eq, span⟩ :: ts)
  | _ => none

mutual

/-- A block in braces. -/
def block (source : String) : Nat → List Lexeme → Except SyntaxError (Read Block)
  | 0, ts => fail (.token (.punct .openBrace)) ts
  | fuel + 1, ts => do
    let (start, ts) ← mark .openBrace ts
    let (stmts, ts) ← stmts source fuel [] ts
    let (close, ts) ← mark .closeBrace ts
    .ok (.mk stmts (start.merge close), ts)

/-- Statements up to a closing brace or the end of the input; `done` holds those already read, last
one first. -/
def stmts (source : String) : Nat → List Stmt → List Lexeme → Except SyntaxError (Read (List Stmt))
  | 0, _, ts => fail .statement ts
  | fuel + 1, done, ts =>
    match ts with
    | ⟨.punct .closeBrace, _⟩ :: _ | ⟨.eof, _⟩ :: _ | [] => .ok (done.reverse, ts)
    | ts => do
      let (s, ts) ← stmt source fuel ts
      stmts source fuel (s :: done) ts

def stmt (source : String) : Nat → List Lexeme → Except SyntaxError (Read Stmt)
  | 0, ts => fail .statement ts
  | fuel + 1, ts =>
    match ts with
    | ⟨.keyword .break_, span⟩ :: ts => .ok (.break_ span, ts)
    | ⟨.keyword .collapse, _⟩ :: _ => do
      let (c, ts) ← call source fuel ts
      .ok (.call c, ts)
    | ⟨.keyword .let_, start⟩ :: ts => do
      let ((s, nameSpan), ts) ← name .variableName ts
      let (_, ts) ← mark .eq ts
      let (value, ts) ← expr source fuel 0 ts
      .ok (.let_ s nameSpan value (start.merge value.span), ts)
    | ⟨.keyword .return_, start⟩ :: ts =>
      if startsExpr ts then do
        let (value, ts) ← expr source fuel 0 ts
        .ok (.return_ (some value) (start.merge value.span), ts)
      else .ok (.return_ none start, ts)
    | ⟨.keyword .loop, start⟩ :: ts => do
      let (body, ts) ← block source fuel ts
      .ok (.loop body (start.merge body.span), ts)
    | ⟨.keyword .if_, start⟩ :: ts => do
      let (cond, ts) ← expr source fuel 0 ts
      let (body, ts) ← block source fuel ts
      let (rest, ts) ← branches source fuel ts
      .ok (.if_ cond body rest (start.merge (rest.lastSpan body.span)), ts)
    | ⟨.name _, _⟩ :: ⟨.punct .openParen, _⟩ :: _ => do
      let (c, ts) ← call source fuel ts
      .ok (.call c, ts)
    | ⟨.name s, span⟩ :: ts =>
      match assignment? ts with
      | none => .ok (.lone s span, ts)
      | some (op, ts) => do
        let (_, ts) ← mark .eq ts
        let (value, ts) ← expr source fuel 0 ts
        .ok (.assign s span op value (span.merge value.span), ts)
    | ts => fail .statement ts

/-- The rest of an `if` after its first body. -/
def branches (source : String) : Nat → List Lexeme → Except SyntaxError (Read Branches)
  | 0, ts => .ok (.done, ts)
  | fuel + 1, ts =>
    match ts with
    | ⟨.keyword .elif, _⟩ :: ts => do
      let (cond, ts) ← expr source fuel 0 ts
      let (body, ts) ← block source fuel ts
      let (rest, ts) ← branches source fuel ts
      .ok (.elif cond body rest, ts)
    | ⟨.keyword .else_, _⟩ :: ts => do
      let (body, ts) ← block source fuel ts
      .ok (.else_ body, ts)
    | ts => .ok (.done, ts)

end

/-! ## Files -/

def param? : Token → Option (String × Bool)
  | .name s => some (s, false)
  | .reference s => some (s, true)
  | _ => none

/-- Parameters with commas between them, up to the closing parenthesis; `done` holds those already
read, last one first. -/
def params (done : List Param) : List Lexeme → Except SyntaxError (Read (List Param))
  | [] => fail .paramName []
  | l :: ts =>
    match param? l.token with
    | none => fail .paramName (l :: ts)
    | some (s, isRef) =>
      if isRef && done.head?.any (!·.isRef) then fail .refsFirst (l :: ts)
      else
        let done := ⟨s, isRef, l.span⟩ :: done
        match ts with
        | ⟨.punct .comma, _⟩ :: ts => params done ts
        | ts => do
          let (_, ts) ← mark .closeParen ts
          .ok (done.reverse, ts)

/-- A parameter list in parentheses, which may be empty. -/
def paramList (ts : List Lexeme) : Except SyntaxError (Read (List Param)) := do
  let (_, ts) ← mark .openParen ts
  match ts with
  | ⟨.punct .closeParen, _⟩ :: ts => .ok ([], ts)
  | ts => params [] ts

/-- A bound on the steps a reader takes on these lexemes. -/
def steps (ts : List Lexeme) : Nat :=
  4 * ts.length + 8

/-- The rest of a callable after its keyword at `start`. -/
def callable (source : String) (fuel : Nat) (kind : CallableKind) (start : Span)
    (ts : List Lexeme) : Except SyntaxError (Read Item) := do
  let ((s, nameSpan), ts) ← name .callableName ts
  let (params, ts) ← paramList ts
  let (body, ts) ← block source fuel ts
  .ok (.callable ⟨kind, s, nameSpan, params, body, start.merge body.span⟩, ts)

/-- One top-level item. -/
def item (source : String) (fuel : Nat) : List Lexeme → Except SyntaxError (Read Item)
  | ⟨.directive d path, span⟩ :: ts => .ok (.directive d path span, ts)
  | ⟨.keyword .global, start⟩ :: ts => do
    let ((s, span), ts) ← name .globalName ts
    .ok (.global s (start.merge span), ts)
  | ⟨.defineWord, start⟩ :: ts => do
    let ((s, nameSpan), ts) ← name .defineName ts
    let (body, ts) ← expr source fuel 0 ts
    .ok (.define ⟨s, nameSpan, body, captured source body.span, start.merge body.span⟩, ts)
  | ⟨.keyword .script, start⟩ :: ts => callable source fuel .script start ts
  | ⟨.keyword .fn, start⟩ :: ts => callable source fuel .function start ts
  | ts => fail .item ts

/-- Items up to the end of the input; `done` holds those already read, last one first. An item takes
at least one lexeme, so `n` is a bound when there are at most `n` lexemes. -/
def items (source : String) (fuel : Nat) : Nat → List Item → List Lexeme →
    Except SyntaxError (List Item)
  | 0, _, ts => fail .item ts
  | n + 1, done, ts =>
    match ts with
    | ⟨.eof, _⟩ :: _ | [] => .ok done.reverse
    | ts => do
      let (i, ts) ← item source fuel ts
      items source fuel n (i :: done) ts

end Parser

/-- Reads a whole file from its lexemes. -/
def parseFile (source : String) (ts : List Lexeme) : Except SyntaxError (List Item) :=
  Parser.items source (Parser.steps ts) (ts.length + 1) [] ts

/-- Reads one expression that takes up all lexemes. -/
def parseExpression (source : String) (ts : List Lexeme) : Except SyntaxError Expr := do
  let (e, ts) ← Parser.expr source (Parser.steps ts) 0 ts
  match ts with
  | ⟨.eof, _⟩ :: _ | [] => .ok e
  | ts => Parser.fail .endOfExpression ts

end CharacterScript
