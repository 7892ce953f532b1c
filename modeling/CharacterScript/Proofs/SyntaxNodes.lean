import CharacterScript.Proofs.Rereading

/-!
# The nodes of a syntax tree

Items, blocks, statements, calls, arguments and expressions are the parts of a tree that have a
span. `SyntaxNode.children` says what stands directly in such a node, so what is in the tree is what
can be reached from the items of the file (`SyntaxNode.InFile`).

## Stretches

A node was read from a stretch of the lexemes: one of the readers, standing in front of the stretch,
takes it up and answers with the node (`SyntaxNode.ReadFrom`). The readers accept whole phrases and
nothing else, so the stretch is a phrase for the node (`SyntaxNode.Phrased`), and a phrase holds the
phrases of its parts: what stands in a node takes up parts of its stretch that follow each other
(`SyntaxNode.Phrased.children`). That every node of a file was read from a stretch of its lexemes is
then an induction on the way down to it.

## Six kinds of nodes

The six types of nodes are put into one, so that the parts of a node are a list, and being inside
of a tree is one relation. What is proved of all nodes is then proved along the way down from an
item, and only the step from a node to its parts looks at the kinds.
-/

namespace CharacterScript

open Running

/-! ## Nodes -/

/-- What has a span in a syntax tree. -/
inductive SyntaxNode where
  | item (i : Item)
  | block (b : Block)
  | stmt (s : Stmt)
  | call (c : Call)
  | arg (a : Arg)
  | expr (e : Expr)

def Item.span : Item → Span
  | .directive _ _ span | .global _ span => span
  | .define d => d.span
  | .callable d => d.span

def Stmt.span : Stmt → Span
  | .break_ span | .return_ _ span | .lone _ span => span
  | .call c => c.span
  | .let_ _ _ _ span | .assign _ _ _ _ span | .loop _ span | .if_ _ _ _ span => span

/-- The conditions and bodies of the branches behind the first, in the order they are written. -/
def Branches.nodes : Branches → List SyntaxNode
  | .done => []
  | .else_ body => [.block body]
  | .elif cond body rest => .expr cond :: .block body :: rest.nodes

def Item.children : Item → List SyntaxNode
  | .directive _ _ _ | .global _ _ => []
  | .define d => [.expr d.body]
  | .callable d => [.block d.body]

def Stmt.children : Stmt → List SyntaxNode
  | .break_ _ | .return_ none _ | .lone _ _ => []
  | .call c => [.call c]
  | .let_ _ _ value _ | .assign _ _ _ value _ | .return_ (some value) _ => [.expr value]
  | .loop body _ => [.block body]
  | .if_ cond body rest _ => .expr cond :: .block body :: rest.nodes

def Arg.children : Arg → List SyntaxNode
  | .expr e => [.expr e]
  | .text _ _ => []

def Expr.children : Expr → List SyntaxNode
  | .number _ _ | .name _ _ _ | .calculation _ _ => []
  | .call c _ => [.call c]
  | .not inner _ => [.expr inner]
  | .binary _ left right _ => [.expr left, .expr right]

@[simp] theorem Expr.children_withSpan (e : Expr) (span : Span) :
    (e.withSpan span).children = e.children := by
  cases e <;> rfl

namespace SyntaxNode

def span : SyntaxNode → Span
  | item i => i.span
  | block b => b.span
  | stmt s => s.span
  | call c => c.span
  | arg a => a.span
  | expr e => e.span

/-- What stands directly in the node, in the order it is written. -/
def children : SyntaxNode → List SyntaxNode
  | item i => i.children
  | block b => b.stmts.map stmt
  | stmt s => s.children
  | call c => c.args.map arg
  | arg a => a.children
  | expr e => e.children

/-- The node is one of the items, or stands in one, however deep. -/
inductive InFile (items : List Item) : SyntaxNode → Prop
  | item {i : Item} (h : i ∈ items) : InFile items (.item i)
  | child {n c : SyntaxNode} (h : InFile items n) (hc : c ∈ n.children) : InFile items c

/-! ## What a node was read from -/

/-- In front of the lexemes `own`, with `rest` behind them, a reader takes up `own` and answers with
the node. Where an operator comes next, an expression may be its left operand, and in front of the
operator more than the operand is read; so there it is left open what stands behind. -/
def ReadFrom (source : String) (own rest : List Lexeme) : SyntaxNode → Prop
  | item i => ∃ fuel, Parser.item source fuel (own ++ rest) = .ok (i, rest)
  | block b => ∃ fuel, Parser.block source fuel (own ++ rest) = .ok (b, rest)
  | stmt s => ∃ fuel, Parser.stmt source fuel (own ++ rest) = .ok (s, rest)
  | call c => ∃ fuel, Parser.call source fuel (own ++ rest) = .ok (c, rest)
  | arg (.expr e) => ∃ fuel, Parser.expr source fuel 0 (own ++ rest) = .ok (e, rest)
  | arg (.text value span) => own = [⟨.text value, span⟩]
  | expr e => ∃ fuel k behind, Parser.expr source fuel k (own ++ behind) = .ok (e, behind) ∧
      (nextOperator? rest = none → behind = rest)

/-- The lexemes `own` are a phrase for the node, and in front of `rest` they are all of it. -/
inductive Phrased (source : String) : SyntaxNode → List Lexeme → List Lexeme → Prop
  | item {p : ItemPhrase} {rest : List Lexeme} (h : p.Whole rest) :
    Phrased source (.item (p.tree source)) p.lexemes rest
  | block {b : BlockPhrase} {rest : List Lexeme} (h : b.Whole rest) :
    Phrased source (.block (b.tree source)) b.lexemes rest
  | stmt {s : StmtPhrase} {rest : List Lexeme} (h : s.Whole rest) :
    Phrased source (.stmt (s.tree source)) s.lexemes rest
  | call {c : CallPhrase} {rest : List Lexeme} (hlevel : c.Leveled) (hsettled : c.Settled rest) :
    Phrased source (.call (c.tree source)) c.lexemes rest
  | arg {a : ArgPhrase} {rest : List Lexeme} (hlevel : a.Leveled) (hsettled : a.Settled rest)
    (hstops : StopsBelow 0 rest) : Phrased source (.arg (a.tree source)) a.lexemes rest
  | expr {p : Phrase} {k : Nat} {rest : List Lexeme} (hlevel : p.Leveled k)
    (hsettled : p.Settled rest) : Phrased source (.expr (p.tree source)) p.lexemes rest

variable {source : String} {n : SyntaxNode} {own rest : List Lexeme}

/-- A phrase is read. -/
theorem Phrased.readFrom (h : n.Phrased source own rest) : n.ReadFrom source own rest := by
  cases h with
  | item hwhole => exact ⟨_, Parser.item_of_whole hwhole le_rfl⟩
  | block hwhole => exact ⟨_, Parser.block_of_whole hwhole (Nat.le_add_right _ 2)⟩
  | stmt hwhole => exact ⟨_, Parser.stmt_of_whole hwhole le_rfl⟩
  | call hlevel hsettled => exact ⟨_, Parser.call_of_settled hlevel hsettled (Nat.le_add_right _ 2)⟩
  | @arg a _ hlevel hsettled hstops =>
    cases a with
    | expr p =>
      have hwhole : p.Whole 0 rest := ⟨hlevel, hsettled, hstops⟩
      exact ⟨_, Parser.expr_of_whole hwhole le_rfl⟩
    | text value span => exact rfl
  | @expr p k _ hlevel hsettled =>
    cases hnext : nextOperator? rest with
    | none =>
      have hwhole : p.Whole k rest := ⟨hlevel, hsettled, fun op hop ↦ by simp [hnext] at hop⟩
      exact ⟨_, k, rest, Parser.expr_of_whole hwhole le_rfl, fun _ ↦ rfl⟩
    | some op =>
      have hend := ended_eof ⟨0, 0⟩ []
      have hwhole : p.Whole k [⟨.eof, ⟨0, 0⟩⟩] :=
        ⟨hlevel, hsettled.closed _ hend, hend.stops.mono (Nat.zero_le k)⟩
      refine ⟨_, k, _, Parser.expr_of_whole hwhole le_rfl, fun hnone ↦ ?_⟩
      cases hnext.symm.trans hnone

/-- What was read is a phrase. -/
theorem ReadFrom.exists_phrased (h : n.ReadFrom source own rest) :
    ∃ behind, n.Phrased source own behind := by
  cases n with
  | item i =>
    obtain ⟨fuel, hread⟩ := h
    obtain ⟨p, hp, rfl, hwhole⟩ := Parser.exists_phrase_of_item hread
    rw [List.append_cancel_right hp]
    exact ⟨rest, .item hwhole⟩
  | block b =>
    obtain ⟨fuel, hread⟩ := h
    obtain ⟨p, hp, rfl, hwhole⟩ := Parser.exists_phrase_of_block hread
    rw [List.append_cancel_right hp]
    exact ⟨rest, .block hwhole⟩
  | stmt s =>
    obtain ⟨fuel, hread⟩ := h
    obtain ⟨p, hp, rfl, hwhole⟩ := Parser.exists_phrase_of_stmt hread
    rw [List.append_cancel_right hp]
    exact ⟨rest, .stmt hwhole⟩
  | call c =>
    obtain ⟨fuel, hread⟩ := h
    obtain ⟨p, hp, rfl, hlevel, hsettled⟩ := Parser.exists_phrase_of_call hread
    rw [List.append_cancel_right hp]
    exact ⟨rest, .call hlevel hsettled⟩
  | arg a =>
    cases a with
    | expr e =>
      obtain ⟨fuel, hread⟩ := h
      obtain ⟨p, hp, rfl, hwhole⟩ := Parser.exists_phrase_of_expr hread
      rw [List.append_cancel_right hp]
      exact ⟨rest, .arg (a := .expr p) hwhole.leveled hwhole.settled hwhole.stops⟩
    | text value span =>
      obtain rfl := h
      exact ⟨[], .arg (a := .text value span) trivial trivial nofun⟩
  | expr e =>
    obtain ⟨fuel, k, behind, hread, -⟩ := h
    obtain ⟨p, hp, rfl, hwhole⟩ := Parser.exists_phrase_of_expr hread
    rw [List.append_cancel_right hp]
    exact ⟨behind, .expr hwhole.leveled hwhole.settled⟩

end SyntaxNode

/-! ## One behind the other

Nodes that come in turn take up stretches of a list of lexemes that follow each other, with other
lexemes in between. -/

variable {source : String}

/-- The nodes are phrases in parts of `own` that follow each other, with `rest` behind `own`. -/
def InTurn (source : String) : List SyntaxNode → List Lexeme → List Lexeme → Prop
  | [], _, _ => True
  | n :: nodes, own, rest => ∃ gap stretch back, own = gap ++ (stretch ++ back) ∧
      n.Phrased source stretch (back ++ rest) ∧ InTurn source nodes back rest

namespace InTurn

variable {n : SyntaxNode} {nodes : List SyntaxNode} {own rest : List Lexeme}

/-- Lexemes in front that belong to no node. -/
theorem behind (gap : List Lexeme) (h : InTurn source nodes own rest) :
    InTurn source nodes (gap ++ own) rest := by
  cases nodes with
  | nil => trivial
  | cons n nodes =>
    obtain ⟨front, stretch, back, rfl, hn, hnodes⟩ := h
    exact ⟨gap ++ front, stretch, back, (List.append_assoc _ _ _).symm, hn, hnodes⟩

/-- Lexemes behind that belong to no node. -/
theorem before {more : List Lexeme} (h : InTurn source nodes own (more ++ rest)) :
    InTurn source nodes (own ++ more) rest := by
  induction nodes generalizing own with
  | nil => trivial
  | cons n nodes ih =>
    obtain ⟨gap, stretch, back, rfl, hn, hnodes⟩ := h
    refine ⟨gap, stretch, back ++ more, by simp, ?_, ih hnodes⟩
    rwa [List.append_assoc]

/-- A node in front of others. -/
theorem cons {stretch : List Lexeme} (hn : n.Phrased source stretch (own ++ rest))
    (h : InTurn source nodes own rest) : InTurn source (n :: nodes) (stretch ++ own) rest :=
  ⟨[], stretch, own, rfl, hn, h⟩

/-- A node that is alone takes up all there is. -/
theorem singleton (h : n.Phrased source own rest) : InTurn source [n] own rest :=
  ⟨[], own, [], by simp, h, trivial⟩

/-- The stretch of each node. -/
theorem exists_stretch (h : InTurn source nodes own rest) (hn : n ∈ nodes) :
    ∃ front stretch back, own = front ++ (stretch ++ back) ∧
      n.Phrased source stretch (back ++ rest) := by
  induction nodes generalizing own with
  | nil => cases hn
  | cons m nodes ih =>
    obtain ⟨gap, first, more, rfl, hm, hnodes⟩ := h
    rcases List.mem_cons.1 hn with rfl | hn
    · exact ⟨gap, first, more, rfl, hm⟩
    · obtain ⟨front, stretch, back, rfl, hread⟩ := ih hnodes hn
      exact ⟨gap ++ (first ++ front), stretch, back, by simp, hread⟩

end InTurn

/-! ## What stands in an expression -/

theorem Phrase.inTurn : ∀ {p : Phrase} {k : Nat} {rest : List Lexeme}, p.Leveled k →
    p.Settled rest → InTurn source (p.tree source).children p.lexemes rest
  | .number _ _, _, _, _, _ | .hex _ _, _, _, _, _ | .name _ _, _, _, _, _
  | .target _ _ _, _, _, _, _ | .calculation _ _ _ _, _, _, _, _ => trivial
  | .paren opening inner closing, _, rest, hlevel, hsettled => by
    -- the parentheses belong to the expression inside, and have no node
    have hinner : inner.Settled ([Punct.closeParen.at closing] ++ rest) := hsettled
    rw [Phrase.tree, Expr.children_withSpan]
    exact (Phrase.inTurn (p := inner) hlevel hinner).before.behind [Punct.openParen.at opening]
  | .call _, _, _, hlevel, hsettled => .singleton (.call hlevel hsettled)
  | .not sign inner, _, _, hlevel, hsettled =>
    (InTurn.singleton (.expr (p := inner) hlevel hsettled.2)).behind [Punct.bang.at sign]
  | .binary left op sign right, _, rest, hlevel, hsettled => by
    rw [Phrase.Leveled] at hlevel
    have hright : InTurn source [.expr (right.tree source)] right.lexemes rest :=
      .singleton (.expr hlevel.2.2 hsettled.2)
    exact .cons (.expr hlevel.2.1 hsettled.1) (hright.behind [op.punct.at sign])

/-- The arguments of a call, up to its closing parenthesis. -/
theorem ArgsPhrase.inTurn {closing : Span} {rest : List Lexeme} : ∀ {a : ArgsPhrase},
    a.Leveled → a.Settled (Punct.closeParen.at closing :: rest) →
    InTurn source ((a.trees source).map .arg) a.lexemes (Punct.closeParen.at closing :: rest)
  | .last _, hlevel, hsettled => .singleton (.arg hlevel hsettled (ended_closeParen _ _).stops)
  | .more _ comma others, hlevel, hsettled =>
    .cons (.arg hlevel.1 hsettled.1 (ended_comma _ _).stops)
      ((ArgsPhrase.inTurn (a := others) hlevel.2 hsettled.2).behind [Punct.comma.at comma])

theorem CallPhrase.inTurn {c : CallPhrase} {rest : List Lexeme} (hlevel : c.Leveled)
    (hsettled : c.Settled rest) : InTurn source ((c.tree source).args.map .arg) c.lexemes rest := by
  cases c with
  | empty head closing => trivial
  | full head args closing =>
    exact (InTurn.before (ArgsPhrase.inTurn hlevel hsettled)).behind head.lexemes

/-! ## What stands in a statement

A `let`, an assignment and a `return` hold an expression; loops and branches hold blocks. In each
case the order of the parts is that of the phrase. -/

theorem Phrase.Whole.inTurn {p : Phrase} {k : Nat} {rest : List Lexeme} (h : p.Whole k rest) :
    InTurn source [.expr (p.tree source)] p.lexemes rest :=
  .singleton (.expr h.leveled h.settled)

theorem StmtsPhrase.Whole.inTurn {rest : List Lexeme} : ∀ {p : StmtsPhrase}, p.Whole rest →
    InTurn source ((p.trees source).map .stmt) p.lexemes rest
  | .nil, _ => trivial
  | .cons _ more, h => .cons (.stmt h.1) (StmtsPhrase.Whole.inTurn (p := more) h.2)

/-- A condition, its body and the branches behind it. -/
private theorem guarded_inTurn {cond : Phrase} {body : BlockPhrase} {nodes : List SyntaxNode}
    {own rest : List Lexeme} (hcond : cond.Whole 0 (body.lexemes ++ (own ++ rest)))
    (hbody : body.Whole (own ++ rest)) (h : InTurn source nodes own rest) :
    InTurn source (.expr (cond.tree source) :: .block (body.tree source) :: nodes)
      (cond.lexemes ++ (body.lexemes ++ own)) rest := by
  refine .cons (.expr hcond.leveled ?_) (.cons (.block hbody) h)
  rw [List.append_assoc]
  exact hcond.settled

theorem BranchesPhrase.Whole.inTurn {rest : List Lexeme} : ∀ {q : BranchesPhrase}, q.Whole rest →
    InTurn source (q.tree source).nodes q.lexemes rest
  | .done, _ => trivial
  | .else_ word _, h => (InTurn.singleton (.block h)).behind [Keyword.else_.at word]
  | .elif word _ _ more, h =>
    (guarded_inTurn h.1 h.2.1 (BranchesPhrase.Whole.inTurn (q := more) h.2.2)).behind
      [Keyword.elif.at word]

theorem StmtPhrase.Whole.inTurn {s : StmtPhrase} {rest : List Lexeme} (h : s.Whole rest) :
    InTurn source (s.tree source).children s.lexemes rest := by
  cases s with
  | break_ | return_ | lone => trivial
  | call c => exact .singleton (.call h.1 h.2)
  | let_ word s nameSpan sign value =>
    exact (Phrase.Whole.inTurn h).behind
      [Keyword.let_.at word, ⟨.name s, nameSpan⟩, Punct.eq.at sign]
  | assign s nameSpan op sign value =>
    have hvalue : InTurn source [.expr (value.tree source)] value.lexemes rest := h.2.inTurn
    have hsign := (hvalue.behind [Punct.eq.at sign]).behind (op.map fun o ↦ o.1.punct.at o.2).toList
    exact hsign.behind [⟨.name s, nameSpan⟩]
  | returnValue word value => exact (Phrase.Whole.inTurn h).behind [Keyword.return_.at word]
  | loop word body => exact (InTurn.singleton (.block h)).behind [Keyword.loop.at word]
  | if_ word cond body more =>
    exact (guarded_inTurn h.1 h.2.1 (BranchesPhrase.Whole.inTurn h.2.2)).behind
      [Keyword.if_.at word]

theorem BlockPhrase.Whole.inTurn {b : BlockPhrase} {rest : List Lexeme} (h : b.Whole rest) :
    InTurn source ((b.tree source).stmts.map .stmt) b.lexemes rest := by
  obtain ⟨opening, stmts, closing⟩ := b
  have hstmts : stmts.Whole ([Punct.closeBrace.at closing] ++ rest) := h
  exact (StmtsPhrase.Whole.inTurn hstmts).before.behind [Punct.openBrace.at opening]

/-! ## What stands in a file -/

theorem ItemPhrase.Whole.inTurn {p : ItemPhrase} {rest : List Lexeme} (h : p.Whole rest) :
    InTurn source (p.tree source).children p.lexemes rest := by
  cases p with
  | directive | global => trivial
  | define word s nameSpan body =>
    exact (Phrase.Whole.inTurn h).behind [⟨.defineWord, word⟩, ⟨.name s, nameSpan⟩]
  | callable kind word s nameSpan params body =>
    have hbody : InTurn source [.block (body.tree source)] body.lexemes rest :=
      .singleton (.block h.2)
    exact (hbody.behind params.lexemes).behind [kind.keyword.at word, ⟨.name s, nameSpan⟩]

theorem ItemsWhole.inTurn {rest : List Lexeme} : ∀ {ps : List ItemPhrase}, ItemsWhole ps rest →
    InTurn source (ps.map fun p ↦ .item (p.tree source)) (ps.flatMap ItemPhrase.lexemes) rest
  | [], _ => trivial
  | _ :: _, h => by
    rw [List.flatMap_cons]
    exact .cons (.item h.1) (ItemsWhole.inTurn h.2)

/-- The items take up the file one behind the other. -/
theorem ReadsAs.inTurn {items : List Item} (h : ReadsAs source items) :
    ∃ body stop, lex source = .ok (body ++ [⟨.eof, stop⟩]) ∧
      InTurn source (items.map .item) body [⟨.eof, stop⟩] := by
  obtain ⟨ps, ⟨stop, hlex, hwhole⟩, rfl⟩ := readsAs_iff.1 h
  refine ⟨_, stop, hlex, ?_⟩
  rw [List.map_map]
  exact hwhole.inTurn

/-! ## Down the tree -/

namespace SyntaxNode

/-- What stands in a node takes up parts of its stretch that follow each other. -/
theorem Phrased.children {n : SyntaxNode} {own rest : List Lexeme} (h : n.Phrased source own rest) :
    InTurn source n.children own rest := by
  cases h with
  | item hwhole => exact hwhole.inTurn
  | block hwhole => exact BlockPhrase.Whole.inTurn hwhole
  | stmt hwhole => exact hwhole.inTurn
  | call hlevel hsettled => exact CallPhrase.inTurn hlevel hsettled
  | @arg a _ hlevel hsettled hstops =>
    cases a with
    | expr p => exact .singleton (.expr (p := p) hlevel hsettled)
    | text value span => trivial
  | expr hlevel hsettled => exact Phrase.inTurn hlevel hsettled

/-- Every node of a file takes up a stretch of its lexemes. -/
theorem InFile.exists_stretch {items : List Item} {n : SyntaxNode} {ts : List Lexeme}
    (hlex : lex source = .ok ts) (hparse : parseFile source ts = .ok items) (hn : InFile items n) :
    ∃ front own rest, ts = front ++ (own ++ rest) ∧ n.Phrased source own rest := by
  induction hn with
  | @item i hi =>
    obtain ⟨body, stop, hlex', hturn⟩ := ReadsAs.inTurn ⟨ts, hlex, hparse⟩
    obtain rfl := Except.ok.inj (hlex.symm.trans hlex')
    obtain ⟨front, own, back, rfl, hown⟩ := hturn.exists_stretch (List.mem_map_of_mem hi)
    exact ⟨front, own, back ++ [⟨.eof, stop⟩], by simp, hown⟩
  | child _ hc ih =>
    obtain ⟨front, own, rest, rfl, hown⟩ := ih
    obtain ⟨before, stretch, back, rfl, hstretch⟩ := hown.children.exists_stretch hc
    exact ⟨front ++ before, stretch, back ++ rest, by simp, hstretch⟩

end SyntaxNode

end CharacterScript
