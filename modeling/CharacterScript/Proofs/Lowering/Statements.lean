import CharacterScript.Proofs.Lowering.Expressions

/-!
# What a statement is lowered to

`Stmt.Compiled` relates a statement to the instructions it became, in a finished program. An inner
block is followed into its own scope: it is found at its place in the pool of the layer, and what
was written in it is related to what that scope holds. Places are given out from the outside inwards
and from front to back, so the place of a block is the number of blocks before it, and the relation
carries that number along (`Stmt.blocks`). In the same way it carries the variables visible at each
statement.

## Rules

What expressions, targets of assignments and new names have to satisfy is a parameter, the `Rule`.
`Rule.sound` is the rule that lowering itself keeps to, and `lowerStmts_ran` says so. A statement
about the code of a program can therefore be proved in two steps that have nothing to do with
lowering: another rule follows from the sound one, and `stmtsCompiled` carries over
(`stmtsCompiled_mono`).

## What a run has to say

A statement is lowered to instructions in one scope and to scopes elsewhere. So `Ran` says both,
what was put behind what there was, and which scopes the program has grown by, and it ends with
what holds of any program and scope in which all of that is found again. That last part is a
parameter. It is where the relation for the statement goes, and runs one after the other put
theirs together.
-/

namespace CharacterScript

open Running

/-! ## Blocks and variables of a statement

These are computed from the tree, without lowering it: how many blocks are in it, and which
variables it declares for what comes behind. -/

mutual

/-- The number of blocks in a statement, inner ones included. -/
def Stmt.blocks : Stmt → Nat
  | .loop body _ => body.blocks
  | .if_ _ body rest _ => body.blocks + rest.blocks
  | _ => 0

def Block.blocks : Block → Nat
  | .mk stmts _ => 1 + stmtBlocks stmts

def Branches.blocks : Branches → Nat
  | .done => 0
  | .else_ body => body.blocks
  | .elif _ body rest => body.blocks + rest.blocks

def stmtBlocks : List Stmt → Nat
  | [] => 0
  | s :: rest => s.blocks + stmtBlocks rest

end

/-- The variable a statement declares in its own block. -/
def Stmt.declared (l : Layer) : Stmt → List Identifier
  | .let_ name nameSpan _ _ => [⟨.var, name, l.pos nameSpan⟩]
  | _ => []

/-- The variables that statements declare in their own block, in order. -/
def declaredVars (l : Layer) (stmts : List Stmt) : List Identifier :=
  stmts.flatMap (·.declared l)

/-! ## The relation -/

/-- What has to hold of the parts of a statement. -/
structure Rule where
  /-- How expressions are read where these variables are visible, with the pools of a scope. -/
  reading : List Identifier → Scope → Reading
  /-- The slot that a name which is assigned to stands for. -/
  assign : List Identifier → String → UInt16 → Prop
  /-- What a declaration brings about: it is told the scope, the variables visible before it, the
  next place in the pool, the name, and the rest of the block with its instructions. -/
  declare : ScopeId → Scope → List Identifier → Nat → String → Span → List Stmt →
    List Instruction → Prop

/-- The scope is an anonymous one right inside another. -/
structure Scope.Inside (t : Scope) (id : ScopeId) (s : Scope) : Prop where
  /-- The other scope is the block around it. -/
  parent : t.parent = some id
  /-- It is one level deeper. -/
  level : t.level = s.level + 1
  /-- Both belong to one callable. -/
  owner : t.owner = s.owner
  /-- Both belong to one layer. -/
  depth : t.depth = s.depth

/-- The operand that is assigned: with `x op= e` the variable is the left operand. -/
def assigned (op : Option BinOp) (slot : UInt16) (value : Operand) : Operand :=
  match op with
  | some op => .binary op (.var slot) value
  | none => value

section

variable (p : Program) (l : Layer) (R : Rule)

mutual

/-- The statement, in the scope `s` with this id, became these instructions. Its blocks have the
places from `place` on. -/
def Stmt.Compiled (id : ScopeId) (s : Scope) (vars : List Identifier) (place : Nat) :
    Stmt → List Instruction → Prop
  | .break_ _, is => ∃ i : UInt16, s.numbers[i.toNat]? = some (narrow 0) ∧
      is = [.leave (.number i) .loop]
  | .call c, is => ∃ target n os, c.Reads (R.reading vars s) target n os ∧
      is = [.call target n c.name c.collapse os]
  | .let_ _ _ value _, is => ∃ o, ∃ slot : UInt16, value.Reads (R.reading vars s) o ∧
      slot.toNat = vars.length ∧ is = [.createVariable, .setVariable slot o]
  | .assign name _ op value _, is => ∃ slot o, R.assign vars name slot ∧
      value.Reads (R.reading vars s) o ∧ is = [.setVariable slot (assigned op slot o)]
  | .return_ (some value) _, is => ∃ o, value.Reads (R.reading vars s) o ∧
      is = [.leave o .function]
  | .return_ none _, is => ∃ i : UInt16, s.numbers[i.toNat]? = some (narrow 0) ∧
      is = [.leave (.number i) .function]
  | .loop body _, is => ∃ w, body.Compiled id s vars place w ∧ is = [.loop w]
  | .if_ cond body rest _, is => ∃ o w sections, cond.Reads (R.reading vars s) o ∧
      body.Compiled id s vars place w ∧
      rest.Compiled id s vars (place + body.blocks) sections ∧
      is = [.choose (.raw Instruction.Tag.first.code :: o :: .raw w :: sections)]
  | .lone _ _, _ => False

/-- The statements, one after the other, became these instructions. -/
def stmtsCompiled (id : ScopeId) (s : Scope) (vars : List Identifier) (place : Nat) :
    List Stmt → List Instruction → Prop
  | [], is => is = []
  | stmt :: rest, is => ∃ first more, is = first ++ more ∧ stmt.Compiled id s vars place first ∧
      (∀ name nameSpan value span, stmt = .let_ name nameSpan value span →
        R.declare id s vars place name nameSpan rest more) ∧
      stmtsCompiled id s (vars ++ stmt.declared l) (place + stmt.blocks) rest more

/-- The block, inside the scope `s` with this id, has the given place in the pool, and the word `w`
says so. -/
def Block.Compiled (id : ScopeId) (s : Scope) (vars : List Identifier) (place : Nat) :
    Block → UInt16 → Prop
  | .mk stmts _, w => w.toNat = place ∧ ∃ inner t, (p.anonymous l.depth)[place]? = some inner ∧
      p.scope? inner = some t ∧ id < inner ∧ t.Inside id s ∧
      t.vars.toList = declaredVars l stmts ∧
      ∃ (i : UInt16) (is : List Instruction), t.numbers[i.toNat]? = some (narrow 0) ∧
        t.instructions.toList = is ++ [.leave (.number i) .scope] ∧
        stmtsCompiled inner t vars (place + 1) stmts is

/-- The branches of an `if` after its first became these operands. -/
def Branches.Compiled (id : ScopeId) (s : Scope) (vars : List Identifier) (place : Nat) :
    Branches → List Operand → Prop
  | .done, os => os = []
  | .else_ body, os => ∃ w, body.Compiled id s vars place w ∧
      os = [.raw Instruction.Tag.otherwise.code, .raw w]
  | .elif cond body rest, os => ∃ o w sections, cond.Reads (R.reading vars s) o ∧
      body.Compiled id s vars place w ∧
      rest.Compiled id s vars (place + body.blocks) sections ∧
      os = .raw Instruction.Tag.next.code :: o :: .raw w :: sections

end

end

/-- The rule that lowering keeps to: expressions are read as the program reads them, a target is the
first variable with its name, and a new variable has a name that no visible variable and no visible
definition has. -/
def Rule.sound (p : Program) (l : Layer) : Rule where
  reading := p.written l
  assign vars name slot := vars.findIdx? (·.name == name) = some slot.toNat
  declare _ _ vars _ name nameSpan _ _ :=
    (∀ i ∈ vars, i.name ≠ name) ∧ p.define? l.depth name nameSpan.start = none

/-! ## From one rule to another -/

/-- One rule says what another one says, where the visible variables satisfy `J` and places satisfy
`Q`. A declaration keeps `J` and may use that the rest of its block was compiled. -/
structure Rule.Le (p : Program) (l : Layer) (Q : Span → Prop) (J : List Identifier → Prop)
    (R R' : Rule) : Prop where
  /-- About expressions. -/
  reading : ∀ {vars s}, J vars → (R.reading vars s).Le Q (R'.reading vars s)
  /-- About assignments. -/
  assign : ∀ {vars name slot}, J vars → R.assign vars name slot → R'.assign vars name slot
  /-- A declaration brings a variable in sight. -/
  step : ∀ {id s vars place name nameSpan rest is}, J vars →
    R.declare id s vars place name nameSpan rest is → J (vars ++ [⟨.var, name, l.pos nameSpan⟩])
  /-- About declarations. -/
  declare : ∀ {id s vars place name nameSpan rest is}, J vars → Q nameSpan →
    (∀ span ∈ stmtSpans rest, Q span) → R.declare id s vars place name nameSpan rest is →
    stmtsCompiled p l R id s (vars ++ [⟨.var, name, l.pos nameSpan⟩]) place rest is →
    R'.declare id s vars place name nameSpan rest is

section

variable {p : Program} {l : Layer} {Q : Span → Prop} {J : List Identifier → Prop} {R R' : Rule}

mutual

theorem Stmt.Compiled.mono (h : R.Le p l Q J R') {id : ScopeId} {s : Scope}
    {vars : List Identifier} (hJ : J vars) : ∀ {stmt : Stmt} {place : Nat} {is : List Instruction},
    (∀ span ∈ stmt.spans, Q span) → stmt.Compiled p l R id s vars place is →
      stmt.Compiled p l R' id s vars place is
  | .break_ _, _, _, _, hc => hc
  | .call _, _, _, hQ, ⟨target, n, os, hread, his⟩ =>
    ⟨target, n, os, hread.mono (h.reading hJ) fun span hs ↦ hQ span (by simp [Stmt.spans, hs]), his⟩
  | .let_ _ _ _ _, _, _, hQ, ⟨o, slot, hread, hslot, his⟩ =>
    ⟨o, slot, hread.mono (h.reading hJ) fun span hs ↦ hQ span (by simp [Stmt.spans, hs]), hslot,
      his⟩
  | .assign _ _ _ _ _, _, _, hQ, ⟨slot, o, hassign, hread, his⟩ =>
    ⟨slot, o, h.assign hJ hassign,
      hread.mono (h.reading hJ) fun span hs ↦ hQ span (by simp [Stmt.spans, hs]), his⟩
  | .return_ (some _) _, _, _, hQ, ⟨o, hread, his⟩ =>
    ⟨o, hread.mono (h.reading hJ) fun span hs ↦ hQ span (by simp [Stmt.spans, hs]), his⟩
  | .return_ none _, _, _, _, hc => hc
  | .loop _ _, _, _, hQ, ⟨w, hbody, his⟩ =>
    ⟨w, Block.Compiled.mono h hJ (fun span hs ↦ hQ span (by simp [Stmt.spans, hs])) hbody, his⟩
  | .if_ _ _ _ _, _, _, hQ, ⟨o, w, sections, hread, hbody, hrest, his⟩ =>
    ⟨o, w, sections,
      hread.mono (h.reading hJ) fun span hs ↦ hQ span (by simp [Stmt.spans, hs]),
      Block.Compiled.mono h hJ (fun span hs ↦ hQ span (by simp [Stmt.spans, hs])) hbody,
      Branches.Compiled.mono h hJ (fun span hs ↦ hQ span (by simp [Stmt.spans, hs])) hrest, his⟩

theorem stmtsCompiled_mono (h : R.Le p l Q J R') {id : ScopeId} {s : Scope} :
    ∀ {stmts : List Stmt} {vars : List Identifier} {place : Nat} {is : List Instruction}, J vars →
      (∀ span ∈ stmtSpans stmts, Q span) → stmtsCompiled p l R id s vars place stmts is →
      stmtsCompiled p l R' id s vars place stmts is
  | [], _, _, _, _, _, his => his
  | stmt :: rest, vars, _, _, hJ, hQ, ⟨first, more, his, hstmt, hdeclare, hrest⟩ => by
    have hQrest : ∀ span ∈ stmtSpans rest, Q span := fun span hs ↦ hQ span (by simp [stmtSpans, hs])
    have hQstmt : ∀ span ∈ stmt.spans, Q span := fun span hs ↦ hQ span (by simp [stmtSpans, hs])
    -- only a declaration changes the visible variables
    have hJrest : J (vars ++ stmt.declared l) := by
      cases stmt with
      | let_ name nameSpan value span => exact h.step hJ (hdeclare name nameSpan value span rfl)
      | _ => simpa [Stmt.declared] using hJ
    refine ⟨first, more, his, Stmt.Compiled.mono h hJ hQstmt hstmt, ?_,
      stmtsCompiled_mono h hJrest hQrest hrest⟩
    rintro name nameSpan value span rfl
    exact h.declare hJ (hQstmt nameSpan (by simp [Stmt.spans])) hQrest
      (hdeclare name nameSpan value span rfl) hrest

theorem Block.Compiled.mono (h : R.Le p l Q J R') {id : ScopeId} {s : Scope}
    {vars : List Identifier} (hJ : J vars) : ∀ {b : Block} {place : Nat} {w : UInt16},
    (∀ span ∈ b.spans, Q span) → b.Compiled p l R id s vars place w →
      b.Compiled p l R' id s vars place w
  | .mk _ _, _, _, hQ, ⟨hw, inner, t, hpool, ht, hlt, hinside, hvars, i, is, hzero,
      hcode, hstmts⟩ =>
    ⟨hw, inner, t, hpool, ht, hlt, hinside, hvars, i, is, hzero, hcode,
      stmtsCompiled_mono h hJ (fun span hs ↦ hQ span (by simp [Block.spans, hs])) hstmts⟩

theorem Branches.Compiled.mono (h : R.Le p l Q J R') {id : ScopeId} {s : Scope}
    {vars : List Identifier} (hJ : J vars) : ∀ {b : Branches} {place : Nat} {os : List Operand},
    (∀ span ∈ b.spans, Q span) → b.Compiled p l R id s vars place os →
      b.Compiled p l R' id s vars place os
  | .done, _, _, _, hc => hc
  | .else_ _, _, _, hQ, ⟨w, hbody, hos⟩ =>
    ⟨w, Block.Compiled.mono h hJ (fun span hs ↦ hQ span (by simp [Branches.spans, hs])) hbody, hos⟩
  | .elif _ _ _, _, _, hQ, ⟨o, w, sections, hread, hbody, hrest, hos⟩ =>
    ⟨o, w, sections,
      hread.mono (h.reading hJ) fun span hs ↦ hQ span (by simp [Branches.spans, hs]),
      Block.Compiled.mono h hJ (fun span hs ↦ hQ span (by simp [Branches.spans, hs])) hbody,
      Branches.Compiled.mono h hJ (fun span hs ↦ hQ span (by simp [Branches.spans, hs])) hrest, hos⟩

end

end

/-! ## Runs of lowering

A step says what it needs of the finished scope as a hypothesis, so that steps can be proved
before the scope is finished. -/

namespace Program

/-- The program has these scopes from the id `a` on, and their ids from the place `n` of the pool
on. -/
def Holds (p : Program) (depth a n : Nat) (new : List Scope) : Prop :=
  ∀ (i : Nat) t, new[i]? = some t →
    p.scope? (a + i) = some t ∧ (p.anonymous depth)[n + i]? = some (a + i)

theorem holds_append {p : Program} {depth a n : Nat} {new more : List Scope}
    (h : p.Holds depth a n (new ++ more)) :
    p.Holds depth a n new ∧ p.Holds depth (a + new.length) (n + new.length) more := by
  constructor
  · intro i t ht
    exact h i t (by rw [List.getElem?_append_left (List.getElem?_eq_some_iff.1 ht).1, ht])
  · intro i t ht
    have hi := h (new.length + i) t (by rw [List.getElem?_append_right (by omega)]; simpa using ht)
    rwa [← Nat.add_assoc, ← Nat.add_assoc] at hi

end Program

/-- The place where code is being lowered is one of the work at hand. -/
structure Env.Fits (env : Env) (w : Work) : Prop where
  /-- Layers count from one. -/
  depth_pos : 0 < env.layer.depth
  /-- The layer has a pool. -/
  depth_le : env.layer.depth ≤ w.program.pools.size
  /-- The scope being filled has its place in the arena. -/
  scope_lt : env.scope < w.program.scopes.size

/-- A finished program and scope for work at a place. -/
structure Finishes (env : Env) (w : Work) (p : Program) (s : Scope) : Prop
    extends Completes w p s where
  /-- The scope is nested as deep as the place says. -/
  level : s.level = env.level
  /-- It belongs to the callable the place is in. -/
  owner : s.owner = env.owner
  /-- It belongs to the layer the place is in. -/
  depth : s.depth = env.layer.depth

/-- The size of the pool of the layer. -/
def Env.place (env : Env) (w : Work) : Nat :=
  (w.program.anonymous env.layer.depth).size

/-- Work went on from `w` to `w'`: it declared these variables, gave out these instructions and
added so many scopes, and `C` holds of it in every program and scope that finish it. -/
structure Ran (env : Env) (w w' : Work) (decls : List Identifier) (is : List Instruction)
    (blocks : Nat) (C : Program → Scope → Prop) : Prop where
  /-- The scope being filled is the same one. -/
  head : w.scope.SameHead w'.scope
  /-- The variables come behind those there were. -/
  vars : w'.scope.vars.toList = w.scope.vars.toList ++ decls
  /-- The instructions come behind those there were. -/
  code : w'.scope.instructions.toList = w.scope.instructions.toList ++ is
  /-- Numbers keep their places. -/
  numbers : w.scope.numbers.toList <+: w'.scope.numbers.toList
  /-- Strings keep their places. -/
  strings : w.scope.strings.toList <+: w'.scope.strings.toList
  /-- The program has only grown by these scopes, and `C` holds where they end up. -/
  grown : ∃ new, w'.program = w.program.grow env.layer.depth new ∧ new.length = blocks ∧
    ∀ p s, Finishes env w' p s →
      p.Holds env.layer.depth w.program.scopes.size (env.place w) new → C p s

namespace Ran

variable {env : Env} {w t w' : Work} {decls more : List Identifier} {is js : List Instruction}
  {m n : Nat} {C D : Program → Scope → Prop}

theorem mono (h : Ran env w w' decls is m C) (hCD : ∀ p s, C p s → D p s) :
    Ran env w w' decls is m D := by
  obtain ⟨new, hgrow, hlength, hC⟩ := h.grown
  exact { h with grown := ⟨new, hgrow, hlength,
    fun p s hfin hholds ↦ hCD p s (hC p s hfin hholds)⟩ }

theorem fits (h : Ran env w w' decls is m C) (hfits : env.Fits w) : env.Fits w' := by
  obtain ⟨new, hgrow, -, -⟩ := h.grown
  refine ⟨hfits.depth_pos, ?_, ?_⟩
  · rw [hgrow]
    show _ ≤ (w.program.pools.modify _ _).size
    rw [Array.size_modify]
    exact hfits.depth_le
  · rw [hgrow, Program.size_scopes_grow]
    exact hfits.scope_lt.trans_le (Nat.le_add_right _ _)

theorem place (h : Ran env w w' decls is m C) (hfits : env.Fits w) :
    env.place w' = env.place w + m := by
  obtain ⟨new, hgrow, hlength, -⟩ := h.grown
  rw [Env.place, hgrow, Program.anonymous_grow _ _ _ hfits.depth_pos hfits.depth_le,
    Array.size_append,
    Env.place]
  simp [hlength]

/-- The visible variables afterwards. -/
theorem visible (h : Ran env w w' decls is m C) : env.vars w' = env.vars w ++ decls := by
  obtain ⟨new, hgrow, -, -⟩ := h.grown
  rw [Env.vars, Env.vars, hgrow, h.vars]
  simp only [List.append_assoc]
  rfl

/-- What finishes later work finishes earlier work. -/
theorem finishes (h : Ran env w w' decls is m C) {p : Program} {s : Scope}
    (hfin : Finishes env w' p s) : Finishes env w p s := by
  obtain ⟨new, hgrow, -, -⟩ := h.grown
  have hnames := hfin.names
  rw [hgrow] at hnames
  exact { hfin with
    names := (Program.SameNames.grow _ _ _).trans hnames
    numbers := h.numbers.trans hfin.numbers
    strings := h.strings.trans hfin.strings }

/-- Work that goes on. -/
theorem trans (h : Ran env w t decls is m C) (h' : Ran env t w' more js n D) (hfits : env.Fits w) :
    Ran env w w' (decls ++ more) (is ++ js) (m + n) fun p s ↦ C p s ∧ D p s := by
  have hplace := h.place hfits
  have hbefore : ∀ {p s}, Finishes env w' p s → Finishes env t p s := h'.finishes
  obtain ⟨new, hgrow, hlength, hC⟩ := h.grown
  obtain ⟨new', hgrow', hlength', hD⟩ := h'.grown
  refine ⟨h.head.trans h'.head, ?_, ?_, h.numbers.trans h'.numbers, h.strings.trans h'.strings,
    new ++ new', ?_, ?_, ?_⟩
  · rw [h'.vars, h.vars, List.append_assoc]
  · rw [h'.code, h.code, List.append_assoc]
  · rw [hgrow', hgrow, Program.grow_grow]
  · rw [List.length_append, hlength, hlength']
  · intro p s hfin hholds
    -- the scopes of the later work come behind those of the earlier work, also in the pool
    obtain ⟨hfirst, hsecond⟩ := Program.holds_append hholds
    rw [hlength, ← hplace] at hsecond
    have hsize : w.program.scopes.size + m = t.program.scopes.size := by
      rw [hgrow, Program.size_scopes_grow, hlength]
    rw [hsize] at hsecond
    exact ⟨hC p s (hbefore hfin) hfirst, hD p s hfin hsecond⟩

/-- A quiet step declares nothing, gives out nothing and adds nothing. -/
theorem of_quiet {α : Type} {x : Lowering α} {a : α} (hquiet : Quiet x) (hx : x w = .ok a w')
    (hC : ∀ p s, Completes w' p s → C p s) : Ran env w w' [] [] 0 C := by
  have hpooled := (hquiet w).2 hx
  refine ⟨hpooled.sameHead, ?_, ?_, hpooled.numbers, hpooled.strings, [], ?_, rfl, ?_⟩
  · rw [hpooled.vars, List.append_nil]
  · rw [hpooled.instructions, List.append_nil]
  · rw [Program.grow_nil, hquiet.program hx]
  · exact fun p s hfin _ ↦ hC p s hfin.toCompletes

theorem emit {u : PUnit} {i : Instruction} (h : Lowering.emit i w = .ok u w') :
    Ran env w w' [] [i] 0 fun _ _ ↦ True := by
  rw [Lowering.emit, modify_apply] at h
  cases h
  refine ⟨⟨rfl, rfl, rfl, rfl⟩, by simp, by simp, List.prefix_rfl, List.prefix_rfl, [], ?_, rfl,
    fun _ _ _ _ ↦ trivial⟩
  rw [Program.grow_nil]

theorem zero {pos : Unit → Position} {o : Operand}
    (h : Lowering.pushNumber 0 pos w = .ok o w') : Ran env w w' [] [] 0 fun _ s ↦
      ∃ i : UInt16, o = .number i ∧ s.numbers[i.toNat]? = some (narrow 0) :=
  of_quiet (Lowering.quiet_pushNumber 0 pos) h fun p s hp ↦
    @Lowering.lowers_pushNumber env _ 0 pos w o w' rfl h p s hp

theorem expr {e : Expr} {o : Operand} (h : e.lowerHere env w = .ok o w') :
    Ran env w w' [] [] 0 fun p s ↦ e.Reads (p.written env.layer (env.vars w) s) o :=
  of_quiet (e.quiet_lowerHere env) h fun _ _ hp ↦ Expr.lower_reads h hp

end Ran

/-- What lowering makes sure of when it declares a variable. -/
def Stmt.IsNew (p : Program) (l : Layer) (vars : List Identifier) (stmt : Stmt) : Prop :=
  ∀ name nameSpan value span, stmt = .let_ name nameSpan value span →
    (∀ i ∈ vars, i.name ≠ name) ∧ p.define? l.depth name nameSpan.start = none

theorem Env.taken?_eq_none {env : Env} {name : String} {offset : Nat} {w : Work}
    (h : env.taken? name offset w = none) :
    (∀ i ∈ env.vars w, i.name ≠ name) ∧ env.define? name offset w = none := by
  rw [Env.taken?, Option.or_eq_none_iff, Option.or_eq_none_iff, List.find?_eq_none,
    Option.map_eq_none_iff] at h
  obtain ⟨⟨hvars, hdefine⟩, -⟩ := h
  exact ⟨fun i hi ↦ by simpa using hvars i hi, hdefine⟩

theorem lowerLet_ran {env : Env} {name : String} {nameSpan : Span} {value : Operand} {w w' : Work}
    (h : lowerLet env name nameSpan value w = .ok () w') :
    ∃ slot : UInt16, slot.toNat = (env.vars w).length ∧
      Ran env w w' [⟨.var, name, env.layer.pos nameSpan⟩]
        [.createVariable, .setVariable slot value] 0 fun p _ ↦
          (∀ i ∈ env.vars w, i.name ≠ name) ∧
            p.define? env.layer.depth name nameSpan.start = none := by
  rw [lowerLet] at h
  dsimp only at h
  rw [get_bind] at h
  cases htaken : env.taken? name nameSpan.start w with
  | some other =>
    simp only [htaken] at h
    exact absurd h throw_ne_ok
  | none =>
    simp only [htaken] at h
    obtain ⟨hnew, hdefine⟩ := Env.taken?_eq_none htaken
    split at h
    · obtain ⟨_, _, hthrow, -⟩ := bind_eq_ok.1 h
      exact absurd hthrow throw_ne_ok
    · rw [get_bind, Lowering.declareVar, modify_bind] at h
      obtain ⟨slot, t, hfit, h₁⟩ := bind_eq_ok.1 h
      obtain ⟨hslot, rfl⟩ := Lowering.fit_eq_ok.1 hfit
      cases h₁
      refine ⟨slot, hslot, ⟨rfl, rfl, rfl, rfl⟩, by simp, by simp, List.prefix_rfl,
        List.prefix_rfl, [], ?_, rfl, fun p s hfin _ ↦ ⟨hnew, ?_⟩⟩
      · rw [Program.grow_nil]
      · rw [Program.define?, hfin.names.defines]
        exact hdefine

theorem assignedSlot_eq_ok {env : Env} {name : String} {nameSpan : Span} {slot : UInt16}
    {w w' : Work} (h : assignedSlot env name nameSpan w = .ok slot w') :
    (env.vars w).findIdx? (·.name == name) = some slot.toNat ∧ w' = w := by
  rw [assignedSlot, get_bind, Env.slot?] at h
  cases hk : (env.vars w).findIdx? (·.name == name) with
  | some k =>
    simp only [hk] at h
    obtain ⟨rfl, rfl⟩ := Lowering.fit_eq_ok.1 h
    exact ⟨rfl, rfl⟩
  | none =>
    simp only [hk] at h
    exact absurd h throw_ne_ok

/-- The place inside a new scope. -/
theorem Env.enter_fits {env : Env} {w : Work} (hfits : env.Fits w) :
    (env.enter w.scope.vars.toList w.program.scopes.size).Fits
      ⟨w.program.grow env.layer.depth [env.nested], env.nested⟩ := by
  refine ⟨hfits.depth_pos, ?_, ?_⟩
  · show _ ≤ (w.program.pools.modify _ _).size
    rw [Array.size_modify]
    exact hfits.depth_le
  · show w.program.scopes.size < _
    rw [Program.size_scopes_grow]
    exact Nat.lt_succ_self _

theorem Env.enter_vars (env : Env) (w : Work) :
    (env.enter w.scope.vars.toList w.program.scopes.size).vars
      ⟨w.program.grow env.layer.depth [env.nested], env.nested⟩ = env.vars w := by
  show w.program.globalIdents ++ env.params ++ (env.outer ++ w.scope.vars.toList) ++ [] = _
  rw [List.append_nil, ← List.append_assoc]
  rfl

theorem Env.enter_place {env : Env} {w : Work} (hfits : env.Fits w) :
    (env.enter w.scope.vars.toList w.program.scopes.size).place
      ⟨w.program.grow env.layer.depth [env.nested], env.nested⟩ = env.place w + 1 := by
  show ((w.program.grow env.layer.depth [env.nested]).anonymous env.layer.depth).size = _
  rw [Program.anonymous_grow _ _ _ hfits.depth_pos hfits.depth_le, Array.size_append]
  rfl

theorem word?_eq_some {n : Nat} {w : UInt16} (h : word? n = some w) : w.toNat = n := by
  rw [word?] at h
  split at h
  · cases h
    exact UInt16.toNat_ofNatLT
  · contradiction

/-- What is known of a scope that was filled holds of the block it was filled from. -/
private theorem Block.ran_of_fill {stmts : List Stmt} {span : Span} {env : Env} {w t : Work}
    {word : UInt16} {is : List Instruction} {zero : Operand} (hfits : env.Fits w)
    (hword : word.toNat = env.place w)
    (hran : Ran (env.enter w.scope.vars.toList w.program.scopes.size)
      ⟨w.program.grow env.layer.depth [env.nested], env.nested⟩ t (declaredVars env.layer stmts)
      (is ++ [.leave zero .scope]) (stmtBlocks stmts) fun p s ↦
        stmtsCompiled p env.layer (.sound p env.layer) w.program.scopes.size s (env.vars w)
          (env.place w + 1) stmts is ∧
        ∃ i : UInt16, zero = .number i ∧ s.numbers[i.toNat]? = some (narrow 0)) :
    Ran env w ⟨{ t.program with
        scopes := t.program.scopes.setIfInBounds w.program.scopes.size t.scope }, w.scope⟩ [] []
      (Block.mk stmts span).blocks fun p s ↦
        (Block.mk stmts span).Compiled p env.layer (.sound p env.layer) env.scope s (env.vars w)
          (env.place w) word := by
  obtain ⟨new, hgrow, hlength, hC⟩ := hran.grown
  dsimp only [Env.enter] at hgrow
  rw [Program.grow_grow] at hgrow
  refine ⟨.refl, by simp, by simp, List.prefix_rfl, List.prefix_rfl, t.scope :: new, ?_, ?_, ?_⟩
  · dsimp only
    rw [hgrow]
    exact Program.set_grow_cons _ _ _ _ _
  · rw [List.length_cons, hlength, Block.blocks, Nat.add_comm]
  · intro p s hfin hholds
    have hsplit : p.Holds env.layer.depth w.program.scopes.size (env.place w) ([t.scope] ++ new) :=
      hholds
    obtain ⟨hfirst, hrest⟩ := Program.holds_append hsplit
    obtain ⟨hscope, hpool⟩ := hfirst 0 t.scope rfl
    -- nothing touches the inner scope any more, so it is finished as it is
    have hfin' : Finishes (env.enter w.scope.vars.toList w.program.scopes.size) t p t.scope :=
      { sound := hfin.sound
        names := ⟨hfin.names.globals, hfin.names.functions, hfin.names.scripts, hfin.names.main,
          hfin.names.defines⟩
        numbers := List.prefix_rfl
        strings := List.prefix_rfl
        level := hran.head.level
        owner := hran.head.owner
        depth := hran.head.depth }
    obtain ⟨hstmts, i, rfl, hzero⟩ := hC p t.scope hfin' (by
      rw [Env.enter_place hfits, Program.size_scopes_grow]
      exact hrest)
    refine ⟨hword, w.program.scopes.size, t.scope, hpool, hscope, hfits.scope_lt, ?_, hran.vars, i,
      is, hzero, hran.code, hstmts⟩
    exact ⟨hran.head.parent, by rw [hran.head.level, hfin.level]; rfl,
      by rw [hran.head.owner, hfin.owner]; rfl, by rw [hran.head.depth, hfin.depth]; rfl⟩

/-- Filling the scope of a block, once its statements are known to run. -/
private theorem Block.ran_lower_of {stmts : List Stmt} {span : Span}
    (hstmts : ∀ {env : Env} {w w' : Work}, env.Fits w → lowerStmts env stmts w = .ok () w' →
      ∃ is, Ran env w w' (declaredVars env.layer stmts) is (stmtBlocks stmts) fun p s ↦
        stmtsCompiled p env.layer (.sound p env.layer) env.scope s (env.vars w) (env.place w) stmts
          is)
    {env : Env} {w w' : Work} {word : UInt16} (hfits : env.Fits w)
    (h : (Block.mk stmts span).lower env w = .ok word w') :
    Ran env w w' [] [] (Block.mk stmts span).blocks fun p s ↦
      (Block.mk stmts span).Compiled p env.layer (.sound p env.layer) env.scope s (env.vars w)
        (env.place w) word := by
  rw [Block.lower_apply] at h
  cases hword : word? (w.program.anonymous env.layer.depth).size with
  | none =>
    simp only [hword] at h
    contradiction
  | some place =>
    simp only [hword] at h
    cases hfill : Block.fill env stmts span w.scope.vars.toList w.program.scopes.size
        ⟨w.program.grow env.layer.depth [env.nested], env.nested⟩ with
    | error e t =>
      simp only [hfill] at h
      contradiction
    | ok u t =>
      simp only [hfill] at h
      cases h
      rw [Block.fill] at hfill
      obtain ⟨⟨⟩, t₁, hrun, h₁⟩ := bind_eq_ok.1 hfill
      obtain ⟨zero, t₂, hzero, h₂⟩ := bind_eq_ok.1 h₁
      have hfits' := Env.enter_fits hfits
      obtain ⟨is, hran⟩ := hstmts hfits' hrun
      -- the statements, then the zero, then the instruction that leaves with it
      have hall := (hran.trans (.zero hzero) hfits').trans (.emit h₂) hfits'
      simp only [List.append_nil, Nat.add_zero, and_true] at hall
      rw [Env.enter_vars, Env.enter_place hfits] at hall
      exact Block.ran_of_fill hfits (word?_eq_some hword) hall

/-! ## Statements run as the rule says -/

mutual

theorem Stmt.ran_lower : ∀ (stmt : Stmt) {env : Env} {w w' : Work}, env.Fits w →
    stmt.lower env w = .ok () w' →
      ∃ is, Ran env w w' (stmt.declared env.layer) is stmt.blocks fun p s ↦
        stmt.Compiled p env.layer (.sound p env.layer) env.scope s (env.vars w) (env.place w) is ∧
          stmt.IsNew p env.layer (env.vars w)
  | .break_ span, env, w, w', hfits, h => by
    obtain ⟨zero, t, hzero, h₁⟩ := bind_eq_ok.1 h
    refine ⟨_, ((Ran.zero hzero).trans (.emit h₁) hfits).mono ?_⟩
    rintro p s ⟨⟨i, rfl, hi⟩, -⟩
    exact ⟨⟨i, hi, rfl⟩, nofun⟩
  | .call c, env, w, w', hfits, h => by
    obtain ⟨⟨target, id, os⟩, t, hcall, h₁⟩ := bind_eq_ok.1 h
    have hran : Ran env w t [] [] 0 fun p s ↦
        c.Reads (p.written env.layer (env.vars w) s) target id os :=
      .of_quiet (c.quiet_lower (Site.isQuiet_written env)) hcall fun _ _ hp ↦
        Call.lower_reads hcall hp
    refine ⟨_, (hran.trans (.emit h₁) hfits).mono ?_⟩
    rintro p s ⟨hread, -⟩
    exact ⟨⟨target, id, os, hread, rfl⟩, nofun⟩
  | .let_ name nameSpan value span, env, w, w', hfits, h => by
    obtain ⟨o, t, hvalue, h₁⟩ := bind_eq_ok.1 h
    have hran := Ran.expr hvalue
    obtain ⟨slot, hslot, hlet⟩ := lowerLet_ran h₁
    -- lowering the value has declared nothing, so the slot is counted from before
    rw [hran.visible, List.append_nil] at hslot hlet
    refine ⟨_, (hran.trans hlet hfits).mono ?_⟩
    rintro p s ⟨hread, hnew⟩
    refine ⟨⟨o, slot, hread, hslot, rfl⟩, ?_⟩
    rintro _ _ _ _ ⟨⟩
    exact hnew
  | .assign name nameSpan op value span, env, w, w', hfits, h => by
    rw [Stmt.lower] at h
    obtain ⟨slot, t, hslot, h₁⟩ := bind_eq_ok.1 h
    obtain ⟨hfind, rfl⟩ := assignedSlot_eq_ok hslot
    obtain ⟨o, t₁, hvalue, h₂⟩ := bind_eq_ok.1 h₁
    have hemit : Lowering.emit (.setVariable slot (assigned op slot o)) t₁ = .ok () w' := by
      cases op <;> exact h₂
    refine ⟨_, ((Ran.expr hvalue).trans (.emit hemit) hfits).mono ?_⟩
    rintro p s ⟨hread, -⟩
    exact ⟨⟨slot, o, hfind, hread, rfl⟩, nofun⟩
  | .return_ (some value) span, env, w, w', hfits, h => by
    obtain ⟨o, t, hvalue, h₁⟩ := bind_eq_ok.1 h
    refine ⟨_, ((Ran.expr hvalue).trans (.emit h₁) hfits).mono ?_⟩
    rintro p s ⟨hread, -⟩
    exact ⟨⟨o, hread, rfl⟩, nofun⟩
  | .return_ none span, env, w, w', hfits, h => by
    obtain ⟨zero, t, hzero, h₁⟩ := bind_eq_ok.1 h
    refine ⟨_, ((Ran.zero hzero).trans (.emit h₁) hfits).mono ?_⟩
    rintro p s ⟨⟨i, rfl, hi⟩, -⟩
    exact ⟨⟨i, hi, rfl⟩, nofun⟩
  | .loop body span, env, w, w', hfits, h => by
    rw [Stmt.lower] at h
    obtain ⟨word, t, hbody, h₁⟩ := bind_eq_ok.1 h
    refine ⟨_, ((body.ran_lower hfits hbody).trans (.emit h₁) hfits).mono ?_⟩
    rintro p s ⟨hcompiled, -⟩
    exact ⟨⟨word, hcompiled, rfl⟩, nofun⟩
  | .if_ cond body rest span, env, w, w', hfits, h => by
    rw [Stmt.lower] at h
    obtain ⟨o, t, hcond, h₁⟩ := bind_eq_ok.1 h
    obtain ⟨word, t₁, hbody, h₂⟩ := bind_eq_ok.1 h₁
    obtain ⟨os, t₂, hrest, h₃⟩ := bind_eq_ok.1 h₂
    have hran := Ran.expr hcond
    have hran₁ := body.ran_lower (hran.fits hfits) hbody
    have hboth := hran.trans hran₁ hfits
    -- the branches have the places behind those of the first block
    obtain ⟨sections, rfl, hran₂⟩ := rest.ran_lower (hboth.fits hfits) hrest
    rw [hboth.visible, hboth.place hfits] at hran₂
    rw [hran.visible, hran.place hfits] at hboth
    have hall := (hboth.trans hran₂ hfits).trans (.emit h₃) hfits
    simp only [List.append_nil, List.nil_append, Nat.add_zero, Nat.zero_add] at hall
    refine ⟨_, hall.mono ?_⟩
    rintro p s ⟨⟨⟨hread, hbody⟩, hrest⟩, -⟩
    exact ⟨⟨o, word, sections, hread, hbody, hrest, by simp⟩, nofun⟩
  | .lone name span, env, w, w', hfits, h => absurd h throw_ne_ok

theorem lowerStmts_ran : ∀ (stmts : List Stmt) {env : Env} {w w' : Work}, env.Fits w →
    lowerStmts env stmts w = .ok () w' →
      ∃ is, Ran env w w' (declaredVars env.layer stmts) is (stmtBlocks stmts) fun p s ↦
        stmtsCompiled p env.layer (.sound p env.layer) env.scope s (env.vars w) (env.place w) stmts
          is
  | [], env, w, w', hfits, h => by
    refine ⟨[], .of_quiet (.pure ()) h fun _ _ _ ↦ ?_⟩
    rfl
  | stmt :: rest, env, w, w', hfits, h => by
    rw [lowerStmts] at h
    obtain ⟨⟨⟩, t, hstmt, hrest⟩ := bind_eq_ok.1 h
    obtain ⟨first, hran⟩ := stmt.ran_lower hfits hstmt
    obtain ⟨more, hran₁⟩ := lowerStmts_ran rest (hran.fits hfits) hrest
    rw [hran.visible, hran.place hfits] at hran₁
    refine ⟨first ++ more, (hran.trans hran₁ hfits).mono ?_⟩
    rintro p s ⟨⟨hcompiled, hnew⟩, hrest⟩
    exact ⟨first, more, rfl, hcompiled, hnew, hrest⟩

theorem Block.ran_lower : ∀ (b : Block) {env : Env} {w w' : Work} {word : UInt16}, env.Fits w →
    b.lower env w = .ok word w' → Ran env w w' [] [] b.blocks fun p s ↦
      b.Compiled p env.layer (.sound p env.layer) env.scope s (env.vars w) (env.place w) word
  | .mk stmts _, _, _, _, _, hfits, h =>
    Block.ran_lower_of (fun hfits hrun ↦ lowerStmts_ran stmts hfits hrun) hfits h

theorem Branches.ran_lower : ∀ (b : Branches) {env : Env} {done os : List Operand} {w w' : Work},
    env.Fits w → b.lower env done w = .ok os w' →
      ∃ sections, os = done.reverse ++ sections ∧ Ran env w w' [] [] b.blocks fun p s ↦
        b.Compiled p env.layer (.sound p env.layer) env.scope s (env.vars w) (env.place w) sections
  | .done, env, done, os, w, w', hfits, h => by
    rw [Branches.lower] at h
    obtain ⟨rfl, -⟩ := pure_eq_ok.1 h
    exact ⟨[], by simp, .of_quiet (.pure _) h fun _ _ _ ↦ rfl⟩
  | .else_ body, env, done, os, w, w', hfits, h => by
    rw [Branches.lower] at h
    obtain ⟨word, t, hbody, h₁⟩ := bind_eq_ok.1 h
    obtain ⟨rfl, rfl⟩ := pure_eq_ok.1 h₁
    refine ⟨[.raw Instruction.Tag.otherwise.code, .raw word], by simp,
      (body.ran_lower hfits hbody).mono fun p s hcompiled ↦ ⟨word, hcompiled, rfl⟩⟩
  | .elif cond body rest, env, done, os, w, w', hfits, h => by
    rw [Branches.lower] at h
    obtain ⟨o, t, hcond, h₁⟩ := bind_eq_ok.1 h
    obtain ⟨word, t₁, hbody, h₂⟩ := bind_eq_ok.1 h₁
    have hran := Ran.expr hcond
    have hran₁ := body.ran_lower (hran.fits hfits) hbody
    have hboth := hran.trans hran₁ hfits
    obtain ⟨sections, rfl, hran₂⟩ := rest.ran_lower (hboth.fits hfits) h₂
    rw [hboth.visible, hboth.place hfits] at hran₂
    rw [hran.visible, hran.place hfits] at hboth
    have hall := hboth.trans hran₂ hfits
    simp only [List.append_nil, Nat.zero_add, Nat.add_zero] at hall
    refine ⟨.raw Instruction.Tag.next.code :: o :: .raw word :: sections, by simp, hall.mono ?_⟩
    rintro p s ⟨⟨hread, hbody⟩, hrest⟩
    exact ⟨o, word, sections, hread, hbody, hrest, rfl⟩

end

end CharacterScript
