import CharacterScript.Problem
import CharacterScript.Table
import CharacterScript.Text.Word

/-!
# Definitions and their expansion

A definition stands for a text, not for a value: its name is replaced word for word and nothing is
put in parentheses, so with `#define X 1+2` the text `X*3` reads as `1+2*3`. Expanding a definition
replaces every other definition its text mentions, after expanding those first, and then reads the
result as an expression.

## Order and circles

Texts may mention each other in any order, so a cycle is possible. It is cut off by a budget: a
definition expanded on behalf of another has one less to spend, and one with nothing left is a
problem. Results are kept in the table, also those of the definitions expanded before a failure.

## Where a definition is seen

Expanding does not ask where a definition stands: all definitions of all layers so far may be
mentioned by any other. Only code is bound to the order of its file. It sees the definitions in
front of it and those of earlier layers (`Define.visibleFrom`).
-/

namespace CharacterScript

/-! ## Names -/

inductive IdentKind where
  | global | arg | function | script | var | define
  deriving DecidableEq

def IdentKind.word : IdentKind → String
  | global => "Global"
  | arg => "Arg"
  | function => "Function"
  | script => "Script"
  | var => "Variable"
  | define => "Define"

/-- A name that has been declared: as what, and where. -/
structure Identifier where
  /-- What the name was declared as. -/
  kind : IdentKind
  /-- The name itself. -/
  name : String
  /-- Where the name stands in its declaration. -/
  pos : Position
  deriving DecidableEq

/-! ## Definitions

Expanding works on the table in place and goes by index, so that the order of the table, which
decides what is put in first, is there to be reasoned about. -/

/-- A text with all definitions put in, and the expression it reads as. -/
structure Expansion where
  /-- The text with every definition it mentions put in. -/
  text : String
  /-- The expression that text reads as. -/
  tree : Expr

/-- A definition. `offset` is where it stands in the text of the layer `depth`. -/
structure Define where
  /-- The name that was defined. -/
  ident : Identifier
  /-- The layer the definition stands in. -/
  depth : Nat
  /-- Where it starts in the text of its layer. -/
  offset : Nat
  /-- The body as it was written. -/
  text : String
  /-- What the body expands to. Missing until all the definitions of the layer are known. -/
  expansion : Option Expansion

namespace Define

/-- Code sees the definitions of earlier layers, and those before it in its own. -/
def visibleFrom (d : Define) (depth offset : Nat) : Bool :=
  d.depth < depth || (d.depth == depth && d.offset < offset)

/-- Forgets the expansion. -/
def reset (d : Define) : Define :=
  { d with expansion := none }

end Define

namespace Expansion

/-- How many definitions deep an expansion may go. -/
def budget : Nat := 100

/-- Reads an expanded text, blaming the definition `name` at `pos`. -/
def read (name : String) (pos : Position) (text : String) : Except Problem Expansion :=
  match lex text with
  | .error e => .error (.lex pos (some name) e.cause)
  | .ok ts =>
    match parseExpression text ts with
    | .error e => .error (.parse pos (some name) e.expected e.found)
    | .ok tree => .ok ⟨text, tree⟩

/-- Puts the definition at place `other` into `text` if the text mentions it. It is expanded first,
by `expandOther`, unless it already is. -/
def substitute (expandOther : Nat → EStateM Problem (Table Define) Unit) (text : String)
    (other : Nat) : EStateM Problem (Table Define) String := do
  match (← get).at? other with
  | none => pure text
  | some (name, d) =>
    if containsWord text name then
      if d.expansion.isNone then expandOther other
      match ((← get).at? other).bind (·.2.expansion) with
      | some e => pure (replaceWord text name e.text)
      | none => pure text
    else pure text

/-- Expands the definition at a place, with the given budget. A place that does not exist needs no
expansion. -/
def expand : Nat → Nat → EStateM Problem (Table Define) Unit
  | 0, index => do
    match (← get).at? index with
    | none => pure ()
    | some (name, d) => throw (.recursion d.ident.pos name)
  | budget + 1, index => do
    match (← get).at? index with
    | none => pure ()
    | some (name, d) =>
      let text ← (List.range (← get).size).foldlM (substitute (expand budget)) d.text
      match read name d.ident.pos text with
      | .error e => throw e
      | .ok e => modify (·.modifyAt index fun d ↦ { d with expansion := some e })

/-- Expands the definition at a place unless it already is. -/
def ensure (index : Nat) : EStateM Problem (Table Define) Unit := do
  match (← get).at? index with
  | none => pure ()
  | some (_, d) => if d.expansion.isNone then expand budget index

/-- Expands every definition anew, in order. -/
def expandAll : EStateM Problem (Table Define) Unit := do
  modify (·.map Define.reset)
  (List.range (← get).size).forM ensure

end Expansion

end CharacterScript
