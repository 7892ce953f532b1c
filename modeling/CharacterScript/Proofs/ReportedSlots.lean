import CharacterScript.Symbols
import CharacterScript.Proofs.Lowering.Scopes
import CharacterScript.Proofs.VisibleNames

/-!
# The slots that are reported

Two lists of variables are made for a block. Lowering has the variables declared so far, and the
next one gets their number as its slot. `Program.allVars` lists afterwards what the finished scopes
have, and the position in that list is what is shown to a user as the slot. The second list has more
in it: a scope around the block has all its variables by then, also those declared behind the block.

## The difference

So the position of a variable is its slot and the number of variables that the blocks around declare
behind the block it is in. `Within` follows blocks inwards and collects those variables, and
`reported_slots` says where each declaration is listed. Position and slot are the same exactly if
nothing was collected.
-/

namespace CharacterScript

/-! ## Blocks inside a body

The way to a block goes through statements with blocks in them, and at each of these some
variables are declared further down. -/

/-- The blocks right inside the branches of an `if` after its first. -/
def Branches.bodies : Branches → List Block
  | .done => []
  | .else_ body => [body]
  | .elif _ body rest => body :: rest.bodies

/-- The blocks right inside a statement. -/
def Stmt.bodies : Stmt → List Block
  | .loop body _ => [body]
  | .if_ _ body rest _ => body :: rest.bodies
  | _ => []

/-- The statements are a block of the body, at any depth, and `behind` are the variables that the
blocks around it declare behind it. -/
inductive Within (l : Layer) (body : List Stmt) : List Identifier → List Stmt → Prop
  | body : Within l body [] body
  | inner {behind : List Identifier} {front rest : List Stmt} {stmt : Stmt} {block : Block}
      (houter : Within l body behind (front ++ stmt :: rest)) (hblock : block ∈ stmt.bodies) :
      Within l body (behind ++ declaredVars l rest) block.stmts

/-- A statement with a block in it declares no variable of its own. -/
theorem Stmt.declared_eq_nil {stmt : Stmt} {block : Block} (h : block ∈ stmt.bodies) (l : Layer) :
    stmt.declared l = [] := by
  cases stmt with
  | let_ name nameSpan value span => exact absurd h List.not_mem_nil
  | _ => rfl

/-! ## What a scope sees -/

namespace Program

variable {p : Program} {id inner : ScopeId} {s t : Scope} {vars : List Identifier}

/-- These are the variables visible in a scope, however far its chain is followed. -/
def Sees (p : Program) (id : ScopeId) (vars : List Identifier) : Prop :=
  ∀ fuel, id < fuel → p.varsWithin fuel id = vars

theorem Sees.allVars (h : p.Sees id vars) (hs : p.scope? id = some s) : p.allVars id = vars :=
  h _ (Array.getElem?_eq_some_iff.1 hs).1

theorem sees_root (hs : p.scope? id = some s) (hparent : s.parent = none) {c : Callable}
    (hc : p.callable? s.owner = some c) :
    p.Sees id (p.globalIdents ++ c.params ++ s.vars.toList) := by
  intro fuel hfuel
  obtain ⟨fuel, rfl⟩ := Nat.exists_eq_succ_of_ne_zero (Nat.ne_zero_of_lt hfuel)
  rw [varsWithin_root hs hparent, hc]
  rfl

theorem Sees.nested (h : p.Sees id vars) (hs : p.scope? id = some s) (ht : p.scope? inner = some t)
    (hparent : t.parent = some id) (hlt : id < inner) :
    p.Sees inner (vars ++ t.vars.toList) := by
  intro fuel hfuel
  obtain ⟨fuel, rfl⟩ := Nat.exists_eq_succ_of_ne_zero (Nat.ne_zero_of_lt hfuel)
  have hid : id < fuel := Nat.lt_of_lt_of_le hlt (Nat.le_of_lt_succ hfuel)
  rw [varsWithin_inner hs ht hparent (Nat.zero_lt_of_lt hid), h fuel hid]

/-- The variable is listed at this position among those visible in the scope, with only the later
ones of its own block behind it, and it is shown with this position as its slot. -/
structure Reports (p : Program) (id : ScopeId) (x : Identifier) (later : List Identifier)
    (position : Nat) : Prop where
  /-- So many variables are listed before it, and the later ones of its block behind it. -/
  listed : ∃ earlier, p.allVars id = earlier ++ x :: later ∧ earlier.length = position
  /-- An editor is told that position as its slot. -/
  shown : ∀ v, (p.symbolsIn v id)[(p.symbols v).length + (position - p.globals.size)]?
    = some (.ofIdent x (some (Symbol.slotText position)))

theorem size_globals_eq (p : Program) : p.globals.size = p.globalIdents.length := by
  simp [globalIdents, Table.values, Table.toList, Table.size]

/-- Whatever is listed behind the globals is shown. -/
theorem reports_of_allVars {earlier later : List Identifier} {x : Identifier}
    (h : p.allVars id = earlier ++ x :: later) (hglobals : p.globals.size ≤ earlier.length) :
    p.Reports id x later earlier.length := by
  refine ⟨⟨earlier, h, rfl⟩, fun v ↦ ?_⟩
  rw [symbolsIn, List.getElem?_append_right (Nat.le_add_right _ _), Nat.add_sub_cancel_left, locals,
    List.getElem?_drop, Nat.add_sub_cancel' hglobals, List.getElem?_mapIdx, h,
    List.getElem?_append_right le_rfl, Nat.sub_self]
  rfl

end Program

/-! ## Declarations

The rule `Rule.reported` says of each declaration where it will be listed. It follows from the
sound rule, because that gives the slot, and the list is the slot and what comes later. -/

/-- A declaration is listed behind its slot by as many places as the blocks around declare variables
behind its block. The slot is the number of the variables visible before it. -/
def Rule.reported (p : Program) (l : Layer) (body : List Stmt) : Rule where
  reading := (Rule.sound p l).reading
  assign := (Rule.sound p l).assign
  declare id _ vars _ name nameSpan rest _ := ∃ front value span behind,
    Within l body behind (front ++ .let_ name nameSpan value span :: rest) ∧
    p.Reports id ⟨.var, name, l.pos nameSpan⟩ (declaredVars l rest) (vars.length + behind.length)

/-- Lowering has come to the statements `stmts` of a block of the body, in the scope `id`, with
`vars` in sight. -/
private structure Arrived (p : Program) (l : Layer) (body : List Stmt) (id : ScopeId) (s : Scope)
    (vars : List Identifier) (stmts : List Stmt) : Prop where
  /-- It is a scope of the finished program. -/
  scope : p.scope? id = some s
  /-- The globals are in sight. -/
  globals : p.globals.size ≤ vars.length
  /-- The statements are the rest of a block of the body, with `behind` declared behind the block;
  the names in sight and those declared so far behind are what the listing has before the rest. -/
  place : ∃ front behind earlier, Within l body behind (front ++ stmts) ∧
    p.Sees id (earlier ++ declaredVars l stmts) ∧ earlier.length = vars.length + behind.length

/-- A scope inside this one that has the variables of the block is that of a block of the body. -/
private def Enters (p : Program) (l : Layer) (body : List Stmt) (id : ScopeId) (s : Scope)
    (vars : List Identifier) (block : Block) : Prop :=
  ∀ inner t, p.scope? inner = some t → id < inner → t.Inside id s →
    t.vars.toList = declaredVars l block.stmts → Arrived p l body inner t vars block.stmts

section

variable {p : Program} {l : Layer} {body : List Stmt}

namespace Arrived

variable {id : ScopeId} {s : Scope} {vars : List Identifier} {stmt : Stmt} {rest : List Stmt}

private theorem next (h : Arrived p l body id s vars (stmt :: rest)) :
    Arrived p l body id s (vars ++ stmt.declared l) rest := by
  obtain ⟨front, behind, earlier, hwithin, hsees, hlength⟩ := h.place
  refine ⟨h.scope, h.globals.trans (by simp), front ++ [stmt], behind, earlier ++ stmt.declared l,
    ?_, ?_, ?_⟩
  · rwa [List.append_assoc]
  · rwa [List.append_assoc]
  · rw [List.length_append, List.length_append, hlength]
    omega

/-- A block inside the statement sees all variables of the block around it, those declared behind
the statement too. -/
private theorem enters (h : Arrived p l body id s vars (stmt :: rest)) {block : Block}
    (hblock : block ∈ stmt.bodies) : Enters p l body id s vars block := by
  intro inner t ht hlt hinside hvars
  obtain ⟨front, behind, earlier, hwithin, hsees, hlength⟩ := h.place
  have hdeclared : declaredVars l (stmt :: rest) = declaredVars l rest := by
    rw [declaredVars, List.flatMap_cons, stmt.declared_eq_nil hblock, List.nil_append]
    rfl
  refine ⟨ht, h.globals, [], behind ++ declaredVars l rest, earlier ++ declaredVars l rest,
    hwithin.inner hblock, ?_, ?_⟩
  · rw [← hvars, ← hdeclared]
    exact hsees.nested h.scope ht hinside.parent hlt
  · rw [List.length_append, List.length_append, hlength, Nat.add_assoc]

private theorem declare {name : String} {nameSpan span : Span} {value : Expr} {place : Nat}
    {is : List Instruction}
    (h : Arrived p l body id s vars (.let_ name nameSpan value span :: rest)) :
    (Rule.reported p l body).declare id s vars place name nameSpan rest is := by
  obtain ⟨front, behind, earlier, hwithin, hsees, hlength⟩ := h.place
  refine ⟨front, value, span, behind, hwithin, ?_⟩
  rw [← hlength]
  refine Program.reports_of_allVars (hsees.allVars h.scope) ?_
  rw [hlength]
  exact h.globals.trans (Nat.le_add_right _ _)

end Arrived

mutual

private theorem Stmt.Compiled.reported {id : ScopeId} {s : Scope} {vars : List Identifier} :
    ∀ {stmt : Stmt} {place : Nat} {is : List Instruction},
      (∀ b ∈ stmt.bodies, Enters p l body id s vars b) →
      stmt.Compiled p l (.sound p l) id s vars place is →
      stmt.Compiled p l (.reported p l body) id s vars place is
  | .loop _ _, _, _, h, ⟨w, hbody, his⟩ =>
    ⟨w, Block.Compiled.reported (h _ List.mem_cons_self) hbody, his⟩
  | .if_ _ _ _ _, _, _, h, ⟨o, w, sections, hread, hbody, hrest, his⟩ =>
    ⟨o, w, sections, hread, Block.Compiled.reported (h _ List.mem_cons_self) hbody,
      Branches.Compiled.reported (fun b hb ↦ h b (List.mem_cons_of_mem _ hb)) hrest, his⟩
  | .break_ _, _, _, _, hc | .call _, _, _, _, hc | .let_ _ _ _ _, _, _, _, hc
  | .assign _ _ _ _ _, _, _, _, hc | .return_ (some _) _, _, _, _, hc
  | .return_ none _, _, _, _, hc => hc

private theorem stmtsCompiled.reported {id : ScopeId} {s : Scope} :
    ∀ {stmts : List Stmt} {vars : List Identifier} {place : Nat} {is : List Instruction},
      Arrived p l body id s vars stmts → stmtsCompiled p l (.sound p l) id s vars place stmts is →
      stmtsCompiled p l (.reported p l body) id s vars place stmts is
  | [], _, _, _, _, his => his
  | _ :: _, _, _, _, h, ⟨first, more, his, hstmt, _, hrest⟩ => by
    refine ⟨first, more, his, Stmt.Compiled.reported (fun _ ↦ h.enters) hstmt, ?_,
      stmtsCompiled.reported h.next hrest⟩
    rintro name nameSpan value span rfl
    exact h.declare

private theorem Block.Compiled.reported {id : ScopeId} {s : Scope} {vars : List Identifier} :
    ∀ {b : Block} {place : Nat} {w : UInt16}, Enters p l body id s vars b →
      b.Compiled p l (.sound p l) id s vars place w →
      b.Compiled p l (.reported p l body) id s vars place w
  | .mk _ _, _, _, h, ⟨hw, inner, t, hpool, ht, hlt, hinside, hvars, i, is, hzero, hcode, hstmts⟩ =>
    ⟨hw, inner, t, hpool, ht, hlt, hinside, hvars, i, is, hzero, hcode,
      stmtsCompiled.reported (h inner t ht hlt hinside hvars) hstmts⟩

private theorem Branches.Compiled.reported {id : ScopeId} {s : Scope} {vars : List Identifier} :
    ∀ {b : Branches} {place : Nat} {os : List Operand},
      (∀ b' ∈ b.bodies, Enters p l body id s vars b') →
      b.Compiled p l (.sound p l) id s vars place os →
      b.Compiled p l (.reported p l body) id s vars place os
  | .done, _, _, _, hc => hc
  | .else_ _, _, _, h, ⟨w, hbody, hos⟩ =>
    ⟨w, Block.Compiled.reported (h _ List.mem_cons_self) hbody, hos⟩
  | .elif _ _ _, _, _, h, ⟨o, w, sections, hread, hbody, hrest, hos⟩ =>
    ⟨o, w, sections, hread, Block.Compiled.reported (h _ List.mem_cons_self) hbody,
      Branches.Compiled.reported (fun b hb ↦ h b (List.mem_cons_of_mem _ hb)) hrest, hos⟩

end

theorem BodyCompiled.reported {place : Nat} {owner : Owner} {block : Block}
    (h : BodyCompiled p l (.sound p l) place owner block) :
    BodyCompiled p l (.reported p l block.stmts) place owner block := by
  obtain ⟨c, id, s, is, hc, hdepth, hbody, hs, hroot, hvars, hcode, hstmts⟩ := h
  refine ⟨c, id, s, is, hc, hdepth, hbody, hs, hroot, hvars, hcode,
    stmtsCompiled.reported ?_ hstmts⟩
  refine ⟨hs, ?_, [], [], p.globalIdents ++ c.params, .body, ?_, rfl⟩
  · rw [p.size_globals_eq, List.length_append]
    exact Nat.le_add_right _ _
  · rw [← hvars]
    exact Program.sees_root hs hroot.parent (hroot.owner ▸ hc)

end

/-! ## Single texts -/

/-- In a text that compiles, take any declaration of a variable, in any block. The slot its value is
stored in is the number of variables visible before it, and its position among all variables of the
scope, which is shown as its slot, is greater by the number of variables that the blocks around
declare behind the block of the declaration. -/
theorem reported_slots {source : String} {v : Vocabulary} {p : Program}
    (h : compileSource source v = .ok p) :
    ∃ items, ReadsAs source items ∧ ∀ d, .callable d ∈ items → ∃ place,
      BodyCompiled p ((Session.new v none).nextLayer source)
        (.reported p ((Session.new v none).nextLayer source) d.body.stmts) place
          d.owner d.body := by
  obtain ⟨depth, s, hlayer, rfl⟩ := compileSource_eq_ok h
  obtain ⟨items, hitems, hcompiled⟩ := (Session.Reachable.new v none).compiled hlayer
  refine ⟨items, hitems, fun d hd ↦ ?_⟩
  obtain ⟨order, hperm, hbodies⟩ := hcompiled.bodies
  obtain ⟨place, hbody⟩ :=
    hbodies.body_of_mem (hperm.mem_iff.2 (mem_bodiesOf.2 ⟨d, hd, rfl, rfl⟩))
  exact ⟨place, hbody.reported⟩

/-- A variable that is declared behind a block which has one too. -/
def Sample.lateVariable : String :=
  "script main() \x7b loop \x7b let b = 1 break \x7d let a = 2 \x7d"

/-- Whether the second instruction stores a value in the first slot. -/
def Sample.storesInFirst : List Instruction → Bool
  | _ :: ⟨"SetVariable", [.var 0, _]⟩ :: _ => true
  | _ => false

theorem Sample.storesInFirst_eq_true {is : List Instruction} (h : storesInFirst is = true) :
    ∃ create value rest, is = create :: .setVariable 0 value :: rest := by
  rw [storesInFirst.eq_def] at h
  split at h
  next create value rest => exact ⟨create, value, rest, rfl⟩
  next => contradiction

/-- What the program of the sample has, and what is listed and shown for the block. -/
theorem Sample.lateVariable_compiles :
    ∃ p, compileSource lateVariable vocabulary = .ok p ∧ p.scopes.size = 2 ∧
      ((p.scope? 1).map fun t ↦
        (t.vars.toList.map (·.name), storesInFirst t.instructions.toList)) = some (["b"], true) ∧
      (p.allVars 1).map (·.name) = ["a", "b"] ∧
      (p.locals 1).map (fun s ↦ (s.name, s.detail))
        = [("a", some "slot 0"), ("b", some "slot 1")] := by
  have hruns : (compileSource lateVariable vocabulary).toOption.any (fun p ↦
      decide (p.scopes.size = 2 ∧
        ((p.scope? 1).map fun t ↦
          (t.vars.toList.map (·.name), storesInFirst t.instructions.toList)) = some (["b"], true) ∧
        (p.allVars 1).map (·.name) = ["a", "b"] ∧
        (p.locals 1).map (fun s ↦ (s.name, s.detail))
          = [("a", some "slot 0"), ("b", some "slot 1")])) = true := by
    decide +kernel
  obtain ⟨p, hp, hfacts⟩ := (Option.any_eq_true _ _).1 hruns
  exact ⟨p, Running.toOption_eq_some.1 hp, of_decide_eq_true hfacts⟩

theorem reported_slots_lateVariable :
    ∃ p items, compileSource Sample.lateVariable Sample.vocabulary = .ok p ∧
      p.scopes.size = 2 ∧ ReadsAs Sample.lateVariable items ∧
      ∀ d, .callable d ∈ items → ∃ place,
        BodyCompiled p ((Session.new Sample.vocabulary none).nextLayer Sample.lateVariable)
          (.reported p ((Session.new Sample.vocabulary none).nextLayer Sample.lateVariable)
            d.body.stmts) place d.owner d.body := by
  obtain ⟨p, hp, hsize, -⟩ := Sample.lateVariable_compiles
  obtain ⟨items, hitems, hbodies⟩ := reported_slots hp
  exact ⟨p, items, hp, hsize, hitems, hbodies⟩

/-- The position is not always the slot. Here the variable `b` of the block is stored in slot 0, and
it is listed and shown at position 1, behind the variable `a` that is declared after the block. -/
theorem reported_slot_not_compiled :
    ∃ p t create value rest, compileSource Sample.lateVariable Sample.vocabulary = .ok p ∧
      p.scope? 1 = some t ∧ t.vars.toList.map (·.name) = ["b"] ∧
      t.instructions.toList = create :: .setVariable 0 value :: rest ∧
      (p.allVars 1).map (·.name) = ["a", "b"] ∧
      (p.locals 1).map (fun s ↦ (s.name, s.detail))
        = [("a", some "slot 0"), ("b", some "slot 1")] := by
  obtain ⟨p, hp, -, hscope, hlisted, hshown⟩ := Sample.lateVariable_compiles
  obtain ⟨t, ht, heq⟩ := Option.map_eq_some_iff.1 hscope
  simp only [Prod.mk.injEq] at heq
  obtain ⟨hvars, hstores⟩ := heq
  obtain ⟨create, value, rest, hcode⟩ := Sample.storesInFirst_eq_true hstores
  exact ⟨p, t, create, value, rest, hp, ht, hvars, hcode, hlisted, hshown⟩

end CharacterScript
