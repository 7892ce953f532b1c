import CharacterScript.Token

/-!
# Syntax trees

What a script file says, with the place of everything in it. An expression in parentheses is the
expression inside with the span widened to the parentheses, so trees have no node for them.

## Branches

The chain that follows the first body of an `if` is a type of its own, `Branches`: it is either
over, or an `else` body, or one more condition with its body and the rest of the chain.

## Spans

A span reaches from the first token of a node to its last one. Some nodes also have the span of a
part of theirs, where a message is about that part: of the name in a call, in a declaration, in a
`let` and in an assignment. The body of a definition is kept as a tree and as a text, because the
tree says that the text is an expression and the text is what is put in.
-/

namespace CharacterScript

/-! ## Operators

The codes are those of the runtime. The levels are those of the grammar, from the one that binds
least. -/

inductive BinOp where
  | or | and | bitOr | bitXor | bitAnd | eq | ne | gt | ge | lt | le | shl | shr
  | add | sub | mul | div | mod
  deriving DecidableEq

namespace BinOp

/-- The number the runtime knows the operator by. -/
def code : BinOp → Nat
  | or => 0
  | and => 1
  | bitOr => 2
  | bitXor => 3
  | bitAnd => 4
  | eq => 5
  | ne => 6
  | gt => 7
  | ge => 8
  | lt => 9
  | le => 10
  | shl => 11
  | shr => 12
  | add => 13
  | sub => 14
  | mul => 15
  | div => 16
  | mod => 17

/-- The operator a mark stands for between two operands. -/
def ofPunct? : Punct → Option BinOp
  | .orOr => some or
  | .andAnd => some and
  | .pipe => some bitOr
  | .caret => some bitXor
  | .ampersand => some bitAnd
  | .eqEq => some eq
  | .notEq => some ne
  | .greater => some gt
  | .greaterEq => some ge
  | .less => some lt
  | .lessEq => some le
  | .shiftLeft => some shl
  | .shiftRight => some shr
  | .plus => some add
  | .minus => some sub
  | .star => some mul
  | .slash => some div
  | .percent => some mod
  | _ => none

/-- The level of precedence; a greater level binds tighter. -/
def level : BinOp → Nat
  | or => 0
  | and => 1
  | bitOr => 2
  | bitXor => 3
  | bitAnd => 4
  | eq | ne => 5
  | gt | ge | lt | le => 6
  | shl | shr => 7
  | add | sub => 8
  | mul | div | mod => 9

/-- The number of levels. -/
def levels : Nat := 10

theorem level_lt_levels (op : BinOp) : op.level < levels := by
  cases op <;> decide

/-- The operator that assigns after computing, as in `x += e`. -/
def ofCompound? : Punct → Option BinOp
  | .plus => some add
  | .minus => some sub
  | .star => some mul
  | .slash => some div
  | .percent => some mod
  | _ => none

end BinOp

/-! ## Expressions

Numbers are values here and no longer digits. A calculation is different: its argument stays a
text until definitions have been put into it. -/

mutual

inductive Expr where
  | number (value : Float) (span : Span)
  /-- A name; `fromTarget` if it was written with a leading `@`. -/
  | name (name : String) (fromTarget : Bool) (span : Span)
  | call (call : Call) (span : Span)
  /-- `#calc(…)` with the text between the parentheses. -/
  | calculation (text : String) (span : Span)
  | not (inner : Expr) (span : Span)
  | binary (op : BinOp) (left right : Expr) (span : Span)

/-- A call `name(args)`, with `collapse` in front of it or not. -/
inductive Call where
  | mk (name : String) (nameSpan : Span) (collapse : Bool) (args : List Arg) (span : Span)

inductive Arg where
  | expr (e : Expr)
  | text (value : String) (span : Span)

end

namespace Call

def name : Call → String
  | mk name _ _ _ _ => name

def nameSpan : Call → Span
  | mk _ nameSpan _ _ _ => nameSpan

def collapse : Call → Bool
  | mk _ _ collapse _ _ => collapse

def args : Call → List Arg
  | mk _ _ _ args _ => args

def span : Call → Span
  | mk _ _ _ _ span => span

end Call

namespace Expr

def span : Expr → Span
  | number _ span | name _ _ span | call _ span | calculation _ span | not _ span
  | binary _ _ _ span => span

/-- The same expression at another place. -/
def withSpan (span : Span) : Expr → Expr
  | number value _ => number value span
  | name s fromTarget _ => name s fromTarget span
  | call c _ => call c span
  | calculation text _ => calculation text span
  | not inner _ => not inner span
  | binary op left right _ => binary op left right span

/-- Two operands joined by an operator, at the place that covers both. -/
def join (op : BinOp) (left right : Expr) : Expr :=
  binary op left right (left.span.merge right.span)

end Expr

def Arg.span : Arg → Span
  | expr e => e.span
  | text _ span => span

/-! ## Statements -/

mutual

inductive Stmt where
  | break_ (span : Span)
  | call (call : Call)
  | let_ (name : String) (nameSpan : Span) (value : Expr) (span : Span)
  /-- `x = e`, or `x op= e` if there is an operator. -/
  | assign (name : String) (nameSpan : Span) (op : Option BinOp) (value : Expr) (span : Span)
  | return_ (value : Option Expr) (span : Span)
  | loop (body : Block) (span : Span)
  | if_ (cond : Expr) (body : Block) (rest : Branches) (span : Span)
  /-- A name that stands alone. It reads as a statement but never compiles. -/
  | lone (name : String) (span : Span)

inductive Block where
  | mk (stmts : List Stmt) (span : Span)

/-- What follows the first body of an `if`. -/
inductive Branches where
  | done
  | else_ (body : Block)
  | elif (cond : Expr) (body : Block) (rest : Branches)

end

namespace Block

def stmts : Block → List Stmt
  | mk stmts _ => stmts

def span : Block → Span
  | mk _ span => span

end Block

/-- The span of the last body of a chain, or `before` if there is none. -/
def Branches.lastSpan (before : Span) : Branches → Span
  | done => before
  | else_ body => body.span
  | elif _ body rest => rest.lastSpan body.span

/-! ## Files -/

/-- A parameter in the head of a script or a function. -/
structure Param where
  /-- Its name, without the mark of a reference. -/
  name : String
  /-- Whether it is marked as a reference. -/
  isRef : Bool
  /-- Where it stands, with the mark. -/
  span : Span

/-- The two kinds of callable a file declares. -/
inductive CallableKind where
  | script | function
  deriving DecidableEq

/-- `script name(params) … ` or `fn name(params) …`. -/
structure CallableDecl where
  /-- Whether it is a script or a function. -/
  kind : CallableKind
  /-- The name being declared. -/
  name : String
  /-- Where that name stands. -/
  nameSpan : Span
  /-- The parameters, in order. -/
  params : List Param
  /-- The block with the code. -/
  body : Block
  /-- The declaration from its keyword to its closing brace. -/
  span : Span

/-- The number of leading reference parameters. -/
def CallableDecl.refCount (d : CallableDecl) : Nat :=
  (d.params.takeWhile (·.isRef)).length

/-- `#define name body`; `text` is the body as it was written. -/
structure DefineDecl where
  /-- The name being defined. -/
  name : String
  /-- Where that name stands. -/
  nameSpan : Span
  /-- The body as an expression, with no definition put in. -/
  body : Expr
  /-- The body as it was written. -/
  text : String
  /-- The definition from its keyword to the end of the body. -/
  span : Span

inductive Item where
  | directive (d : PathDirective) (path : String) (span : Span)
  | global (name : String) (span : Span)
  | define (decl : DefineDecl)
  | callable (decl : CallableDecl)

end CharacterScript
