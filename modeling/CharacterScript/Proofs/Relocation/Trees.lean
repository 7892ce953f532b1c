import CharacterScript.Tree

/-!
# Two trees that stand for the same

The same code can be written at other places, or with something else where a name was. A `Motion`
says what is allowed: which expressions may stand where a name stood, which calculations there may
be, and at which places. `Expr.Moves`, `Stmt.Moves` and so on say that two trees are the same but
for that.

## Which places count

Lowering uses most places of a tree only to show where a problem is, and the relation leaves those
alone. Three kinds are used for more, to look up definitions: those of names, those of calculations,
and those of names in a `let`, where a definition of the name would be in the way. Only these are
compared.

## Where motions come from

An edit of a text moves its trees (`Phrase.moves_edit`), and then any place may have become any
other; for such a motion `Motion.Free` is all there is to ask. Lowering one tree twice, in programs
that differ, takes the tree beside itself, with a motion that keeps every place and restricts which
there may be.
-/

namespace CharacterScript

/-- What may differ between two trees. -/
structure Motion where
  /-- The places that a calculation may have, or the name in a `let`. -/
  place : Span → Span → Prop
  /-- What may stand where a name stood, by the name, whether it had an `@`, and its place. -/
  name : String → Bool → Span → Expr → Prop
  /-- The texts of calculations. -/
  calculation : String → Prop

/-- Places do not count for the motion, and names and calculations may stay what they are. -/
structure Motion.Free (m : Motion) : Prop where
  /-- A place may become any other. -/
  place : ∀ span span', m.place span span'
  /-- A name may stay, at any place. -/
  name : ∀ s fromTarget span span', m.name s fromTarget span (.name s fromTarget span')
  /-- A calculation may stay. -/
  calculation : ∀ text, m.calculation text

/-- Only places differ. -/
def Motion.same : Motion where
  place _ _ := True
  name s fromTarget _ e := ∃ span, e = .name s fromTarget span
  calculation _ := True

theorem Motion.free_same : Motion.same.Free :=
  ⟨fun _ _ ↦ trivial, fun _ _ _ span ↦ ⟨span, rfl⟩, fun _ ↦ trivial⟩

/-- What starts at corresponding places in two texts. -/
abbrev Offsets := Nat → Nat → Prop

variable (m : Motion)

/-! ## Expressions

The relation goes down both trees at once. At a name the second tree may go on in another way, and
the motion says which. -/

mutual

inductive Expr.Moves : Expr → Expr → Prop
  | number {value : Float} {span span' : Span} :
    Expr.Moves (.number value span) (.number value span')
  | name {s : String} {fromTarget : Bool} {span : Span} {e : Expr}
    (h : m.name s fromTarget span e) : Expr.Moves (.name s fromTarget span) e
  | call {c c' : Call} {span span' : Span} (h : c.Moves c') :
    Expr.Moves (.call c span) (.call c' span')
  | calculation {text : String} {span span' : Span} (hplace : m.place span span')
    (h : m.calculation text) : Expr.Moves (.calculation text span) (.calculation text span')
  | not {inner inner' : Expr} {span span' : Span} (h : Expr.Moves inner inner') :
    Expr.Moves (.not inner span) (.not inner' span')
  | binary {op : BinOp} {left right left' right' : Expr} {span span' : Span}
    (hleft : Expr.Moves left left') (hright : Expr.Moves right right') :
    Expr.Moves (.binary op left right span) (.binary op left' right' span')

inductive Call.Moves : Call → Call → Prop
  | mk {name : String} {nameSpan nameSpan' : Span} {collapse : Bool} {args args' : List Arg}
    {span span' : Span} (h : ArgsMove args args') :
    Call.Moves (.mk name nameSpan collapse args span) (.mk name nameSpan' collapse args' span')

inductive Arg.Moves : Arg → Arg → Prop
  | expr {e e' : Expr} (h : e.Moves e') : Arg.Moves (.expr e) (.expr e')
  | text {value : String} {span span' : Span} : Arg.Moves (.text value span) (.text value span')

inductive ArgsMove : List Arg → List Arg → Prop
  | nil : ArgsMove [] []
  | cons {a a' : Arg} {as as' : List Arg} (h : a.Moves a') (hmore : ArgsMove as as') :
    ArgsMove (a :: as) (a' :: as')

end

/-! ## Statements -/

mutual

inductive Stmt.Moves : Stmt → Stmt → Prop
  | break_ {span span' : Span} : Stmt.Moves (.break_ span) (.break_ span')
  | call {c c' : Call} (h : c.Moves m c') : Stmt.Moves (.call c) (.call c')
  | let_ {name : String} {nameSpan nameSpan' span span' : Span} {value value' : Expr}
    (hplace : m.place nameSpan nameSpan') (h : value.Moves m value') :
    Stmt.Moves (.let_ name nameSpan value span) (.let_ name nameSpan' value' span')
  | assign {name : String} {nameSpan nameSpan' span span' : Span} {op : Option BinOp}
    {value value' : Expr} (h : value.Moves m value') :
    Stmt.Moves (.assign name nameSpan op value span) (.assign name nameSpan' op value' span')
  | return_ {span span' : Span} : Stmt.Moves (.return_ none span) (.return_ none span')
  | returnValue {value value' : Expr} {span span' : Span} (h : value.Moves m value') :
    Stmt.Moves (.return_ (some value) span) (.return_ (some value') span')
  | loop {body body' : Block} {span span' : Span} (h : body.Moves body') :
    Stmt.Moves (.loop body span) (.loop body' span')
  | if_ {cond cond' : Expr} {body body' : Block} {rest rest' : Branches} {span span' : Span}
    (hcond : cond.Moves m cond') (hbody : body.Moves body') (hrest : rest.Moves rest') :
    Stmt.Moves (.if_ cond body rest span) (.if_ cond' body' rest' span')
  | lone {name : String} {span span' : Span} : Stmt.Moves (.lone name span) (.lone name span')

inductive StmtsMove : List Stmt → List Stmt → Prop
  | nil : StmtsMove [] []
  | cons {s s' : Stmt} {ss ss' : List Stmt} (h : s.Moves s') (hmore : StmtsMove ss ss') :
    StmtsMove (s :: ss) (s' :: ss')

inductive Block.Moves : Block → Block → Prop
  | mk {stmts stmts' : List Stmt} {span span' : Span} (h : StmtsMove stmts stmts') :
    Block.Moves (.mk stmts span) (.mk stmts' span')

inductive Branches.Moves : Branches → Branches → Prop
  | done : Branches.Moves .done .done
  | else_ {body body' : Block} (h : body.Moves body') : Branches.Moves (.else_ body) (.else_ body')
  | elif {cond cond' : Expr} {body body' : Block} {rest rest' : Branches}
    (hcond : cond.Moves m cond') (hbody : body.Moves body') (hrest : rest.Moves rest') :
    Branches.Moves (.elif cond body rest) (.elif cond' body' rest')

end

/-! ## Items -/

/-- The same definition at corresponding places. -/
structure DefineDecl.Moves (place : Offsets) (d d' : DefineDecl) : Prop where
  /-- It has the same name. -/
  name : d'.name = d.name
  /-- It was written in the same way. -/
  text : d'.text = d.text
  /-- The places it starts at correspond. -/
  place : place d.span.start d'.span.start

/-- The same callable with a body that may differ. -/
structure CallableDecl.Moves (same : Block → Block → Prop) (d d' : CallableDecl) : Prop where
  /-- It is of the same kind. -/
  kind : d'.kind = d.kind
  /-- It has the same name. -/
  name : d'.name = d.name
  /-- Its parameters have the same names and the same marks. -/
  params : d'.params.map (fun p ↦ (p.name, p.isRef)) = d.params.map fun p ↦ (p.name, p.isRef)
  /-- The bodies differ in the way that is allowed. -/
  body : same d.body d'.body

/-- Definitions stand at places that correspond, and the bodies of callables are as `same` says.
Directives do not count: they name paths and add nothing to a program. -/
def Item.Moves (place : Offsets) (same : Block → Block → Prop) : Item → Item → Prop
  | .directive _ _ _, i => ∃ d path span, i = .directive d path span
  | .global name _, i => ∃ span, i = .global name span
  | .define d, i => ∃ d', i = .define d' ∧ d.Moves place d'
  | .callable d, i => ∃ d', i = .callable d' ∧ d.Moves same d'

end CharacterScript
