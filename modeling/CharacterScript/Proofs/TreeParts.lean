import CharacterScript.Tree
import CharacterScript.Proofs.Words

/-!
# What is in a tree

Three kinds of things are collected from a tree, each by going through all of it: its places, the
texts of its calculations, and the names that are looked up among the definitions when it is
lowered. As lists they make "everything in the tree" a statement about the members of a list.

## Places

`Expr.spans`, `Stmt.spans` and `Item.spans` list every place a tree mentions: those of the nodes,
and those of the names in calls and in statements.

## Calculations and names

A calculation is kept as a text (`Expr.calculations`). The definitions are put into it when it is
lowered, so the names it looks up are its words; a name in an expression is looked up as it is
(`Expr.lookups`). What is called, and a variable that is assigned to, are not looked up among the
definitions, so they are not in that list.
-/

namespace CharacterScript

/-! ## Places

The list has the place of a node first and then those of what is in it, so the first place is the
widest. -/

mutual

/-- The places of a tree and of everything in it. -/
def Expr.spans : Expr → List Span
  | .number _ span | .name _ _ span | .calculation _ span => [span]
  | .call c span => span :: c.spans
  | .not inner span => span :: inner.spans
  | .binary _ left right span => span :: (left.spans ++ right.spans)

def Call.spans : Call → List Span
  | .mk _ nameSpan _ args span => span :: nameSpan :: argSpans args

def Arg.spans : Arg → List Span
  | .expr e => e.spans
  | .text _ span => [span]

def argSpans : List Arg → List Span
  | [] => []
  | arg :: rest => arg.spans ++ argSpans rest

end

mutual

def Stmt.spans : Stmt → List Span
  | .break_ span | .return_ none span | .lone _ span => [span]
  | .call c => c.spans
  | .let_ _ nameSpan value span | .assign _ nameSpan _ value span =>
    span :: nameSpan :: value.spans
  | .return_ (some value) span => span :: value.spans
  | .loop body span => span :: body.spans
  | .if_ cond body rest span => span :: (cond.spans ++ body.spans ++ rest.spans)

def Block.spans : Block → List Span
  | .mk stmts span => span :: stmtSpans stmts

def Branches.spans : Branches → List Span
  | .done => []
  | .else_ body => body.spans
  | .elif cond body rest => cond.spans ++ body.spans ++ rest.spans

def stmtSpans : List Stmt → List Span
  | [] => []
  | s :: rest => s.spans ++ stmtSpans rest

end

def Item.spans : Item → List Span
  | .directive _ _ span | .global _ span => [span]
  | .define d => d.span :: d.nameSpan :: d.body.spans
  | .callable d => d.span :: d.nameSpan :: d.body.spans

theorem mem_argSpans {s : Span} {as : List Arg} : s ∈ argSpans as ↔ ∃ a ∈ as, s ∈ a.spans := by
  induction as with
  | nil => simp [argSpans]
  | cons a as ih => simp [argSpans, ih]

theorem mem_stmtSpans {s : Span} {ss : List Stmt} :
    s ∈ stmtSpans ss ↔ ∃ r ∈ ss, s ∈ r.spans := by
  induction ss with
  | nil => simp [stmtSpans]
  | cons r ss ih => simp [stmtSpans, ih]

theorem Expr.span_mem_spans (e : Expr) : e.span ∈ e.spans := by
  cases e <;> simp [Expr.span, Expr.spans]

theorem Block.span_mem_spans (b : Block) : b.span ∈ b.spans := by
  cases b
  simp [Block.span, Block.spans]

theorem Call.span_mem_spans (c : Call) : c.span ∈ c.spans := by
  cases c
  simp [Call.span, Call.spans]

/-! ## Calculations -/

mutual

/-- The texts of the calculations in a tree. -/
def Expr.calculations : Expr → List String
  | .number _ _ | .name _ _ _ => []
  | .call c _ => c.calculations
  | .calculation text _ => [text]
  | .not inner _ => inner.calculations
  | .binary _ left right _ => left.calculations ++ right.calculations

def Call.calculations : Call → List String
  | .mk _ _ _ args _ => argCalculations args

def Arg.calculations : Arg → List String
  | .expr e => e.calculations
  | .text _ _ => []

def argCalculations : List Arg → List String
  | [] => []
  | arg :: rest => arg.calculations ++ argCalculations rest

end

mutual

def Stmt.calculations : Stmt → List String
  | .break_ _ | .return_ none _ | .lone _ _ => []
  | .call c => c.calculations
  | .let_ _ _ value _ | .assign _ _ _ value _ | .return_ (some value) _ => value.calculations
  | .loop body _ => body.calculations
  | .if_ cond body rest _ => cond.calculations ++ (body.calculations ++ rest.calculations)

def Block.calculations : Block → List String
  | .mk stmts _ => stmtCalculations stmts

def Branches.calculations : Branches → List String
  | .done => []
  | .else_ body => body.calculations
  | .elif cond body rest => cond.calculations ++ (body.calculations ++ rest.calculations)

def stmtCalculations : List Stmt → List String
  | [] => []
  | s :: rest => s.calculations ++ stmtCalculations rest

end

def Item.calculations : Item → List String
  | .directive _ _ _ | .global _ _ => []
  | .define d => d.body.calculations
  | .callable d => d.body.calculations

/-! ## Names that are looked up

The order is that in which they are looked up, for a comparison of two runs may end at one of
them. -/

mutual

/-- The names that are looked up among the definitions: those in the tree, and the words of the
calculations. -/
def Expr.lookups : Expr → List String
  | .number _ _ => []
  | .name s _ _ => [s]
  | .calculation text _ => wordsOf text
  | .not inner _ => inner.lookups
  | .binary _ left right _ => left.lookups ++ right.lookups
  | .call c _ => c.lookups

def Call.lookups : Call → List String
  | .mk _ _ _ args _ => argLookups args

def Arg.lookups : Arg → List String
  | .expr e => e.lookups
  | .text _ _ => []

def argLookups : List Arg → List String
  | [] => []
  | arg :: rest => arg.lookups ++ argLookups rest

end

mutual

def Stmt.lookups : Stmt → List String
  | .break_ _ | .return_ none _ | .lone _ _ => []
  | .call c => c.lookups
  | .let_ _ _ value _ | .assign _ _ _ value _ | .return_ (some value) _ => value.lookups
  | .loop body _ => body.lookups
  | .if_ cond body rest _ => cond.lookups ++ (body.lookups ++ rest.lookups)

def Block.lookups : Block → List String
  | .mk stmts _ => stmtLookups stmts

def Branches.lookups : Branches → List String
  | .done => []
  | .else_ body => body.lookups
  | .elif cond body rest => cond.lookups ++ (body.lookups ++ rest.lookups)

def stmtLookups : List Stmt → List String
  | [] => []
  | s :: rest => s.lookups ++ stmtLookups rest

end

end CharacterScript
