import CharacterScript.Proofs.Image.Slots
import CharacterScript.Proofs.ScriptIds
import CharacterScript.Proofs.WellFormed

/-!
# Calls go by slots that stay

A call in lowered code has an id in place of the callable. `Program.Resolved` says of all code of a
program that the id is the slot of the callable with the name that the call was written with. Every
program a session reaches is like that, also after layers that failed: what they had lowered by then
stays in the arena, and later layers go on from there.

## What each step does

So the fact is not one about accepted layers, and it is proved along the steps of lowering, as far
as they went. `Resolving` is what each step does for it: whatever the outcome, the arena has
resolved code only, and on success the scope being filled has, too.

## Slots in later images

That names keep their slots when a program goes on is known already. Both together are `ids_stay`:
an id in the code of any layer is the slot of its callable in each image that is ever made. An
expression that is only the name of a script leaves a plain word in the code, without the name; of
that the same is said at the moment when the name is lowered.
-/

namespace CharacterScript

open Running

/-! ## The calls of code

The calls of a scope are listed with those inside operands, from the outside inwards. A property
of all calls is then a property of a list, and lists grow at their end. -/

/-- A call in lowered code: what kind of thing is called, by which id, and under which name. -/
structure CallRef where
  /-- A function, a script or a command. -/
  target : CallTarget
  /-- The index or the opcode that the image will have. -/
  id : UInt16
  /-- The name in the source, which the image does not have. -/
  name : String
  deriving DecidableEq

namespace CallRef

/-- The callable that the call names. A command of the runtime is none. -/
def owner? (r : CallRef) : Option Owner :=
  match r.target with
  | .function => some (.function r.name)
  | .script => some (if r.name = mainName then .main else .script r.name)
  | .builtin => none

/-- The slot that the id of the call stands for. -/
def slot? (r : CallRef) : Option Image.Slot :=
  match r.target with
  | .function => some (.function r.id.toNat)
  | .script => some (.script r.id.toNat)
  | .builtin => none

theorem name_owner? {r : CallRef} {owner : Owner} (h : r.owner? = some owner) :
    owner.name = r.name := by
  rw [owner?] at h
  split at h
  · cases h
    rfl
  · cases h
    split
    next hmain => exact hmain.symm
    next => rfl
  · contradiction

theorem slot?_of_owner? {r : CallRef} {owner : Owner} (h : r.owner? = some owner) :
    ∃ slot, r.slot? = some slot := by
  rw [slot?]
  rw [owner?] at h
  split at h
  · exact ⟨_, rfl⟩
  · exact ⟨_, rfl⟩
  · contradiction

end CallRef

mutual

/-- All calls in an operand, inner ones included. -/
def Operand.calls : Operand → List CallRef
  | .call target id name args => ⟨target, id, name⟩ :: operandCalls args
  | .not inner => inner.calls
  | .binary _ left right => left.calls ++ right.calls
  | .number _ | .text _ | .var _ | .global _ _ | .raw _ => []

def operandCalls : List Operand → List CallRef
  | [] => []
  | o :: rest => o.calls ++ operandCalls rest

end

theorem operandCalls_eq : ∀ os : List Operand, operandCalls os = os.flatMap Operand.calls
  | [] => rfl
  | o :: rest => by rw [operandCalls, operandCalls_eq rest, List.flatMap_cons]

def Instruction.calls (i : Instruction) : List CallRef :=
  i.args.flatMap Operand.calls

def Scope.calls (s : Scope) : List CallRef :=
  s.instructions.toList.flatMap Instruction.calls

namespace Program

/-- The id of a call is the slot of the callable it names. -/
def Resolves (p : Program) (r : CallRef) : Prop :=
  ∀ owner, r.owner? = some owner → p.slot? owner = r.slot?

/-- All calls in an operand are resolved. -/
def ResolvesIn (p : Program) (o : Operand) : Prop :=
  ∀ r ∈ o.calls, p.Resolves r

/-- All calls in these scopes are resolved. -/
def ResolvesAll (p : Program) (scopes : Array Scope) : Prop :=
  ∀ s ∈ scopes, ∀ r ∈ s.calls, p.Resolves r

/-- All calls in the code of a program are resolved. -/
def Resolved (p : Program) : Prop :=
  p.ResolvesAll p.scopes

variable {p q : Program} {v : Vocabulary}

@[simp] theorem resolvesIn_number (i : UInt16) : p.ResolvesIn (.number i) := nofun
@[simp] theorem resolvesIn_var (slot : UInt16) : p.ResolvesIn (.var slot) := nofun
@[simp] theorem resolvesIn_raw (value : UInt16) : p.ResolvesIn (.raw value) := nofun

@[simp] theorem resolvesIn_binary {op : BinOp} {x y : Operand} :
    p.ResolvesIn (.binary op x y) ↔ p.ResolvesIn x ∧ p.ResolvesIn y := by
  rw [ResolvesIn, Operand.calls]
  exact List.forall_mem_append

theorem resolves_calls {i : Instruction} :
    (∀ r ∈ i.calls, p.Resolves r) ↔ ∀ o ∈ i.args, p.ResolvesIn o := by
  simp only [Instruction.calls, List.mem_flatMap, ResolvesIn]
  exact ⟨fun h o ho r hr ↦ h r ⟨o, ho, hr⟩, fun h r ⟨o, ho, hr⟩ ↦ h o ho r hr⟩

theorem Follows.resolves {depth : Nat} {declares : Owner → Prop} (h : p.Follows depth declares q)
    {r : CallRef} (hr : p.Resolves r) : q.Resolves r := by
  intro owner howner
  have hslot := hr owner howner
  obtain ⟨slot, heq⟩ := CallRef.slot?_of_owner? howner
  rw [heq] at hslot ⊢
  exact h.slot? hslot

theorem Calls.resolves {name : String} {target : CallTarget} {id : UInt16} {args : List Operand}
    (h : p.Calls v name target id args) : p.Resolves ⟨target, id, name⟩ := by
  intro owner howner
  cases target with
  | builtin => contradiction
  | function =>
    obtain ⟨i, c, hat, hid, -⟩ := h
    cases howner
    exact Option.map_eq_some_iff.2 ⟨i, Table.indexOf?_eq_some_iff.2 ⟨c, hat⟩, by rw [hid]⟩
  | script =>
    cases howner
    rw [Calls] at h
    split at h
    next hmain =>
      obtain ⟨rfl, c, hc, -⟩ := h
      rw [if_pos hmain]
      exact Option.map_eq_some_iff.2 ⟨c, hc, rfl⟩
    next hmain =>
      obtain ⟨i, c, hat, hid, -⟩ := h
      rw [if_neg hmain, CallRef.slot?]
      dsimp only
      rw [hid]
      exact slot?_script.2 (Table.indexOf?_eq_some_iff.2 ⟨c, hat⟩)

end Program

section

variable {p : Program} {v : Vocabulary} {s : Scope} {slots : Nat}

mutual

theorem Operand.WellFormed.resolvesIn : ∀ {o : Operand}, o.WellFormed p v s slots → p.ResolvesIn o
  | .call _ _ _ _, ⟨hcalls, hargs⟩ => by
    rw [Program.ResolvesIn, Operand.calls, List.forall_mem_cons, operandCalls_eq]
    refine ⟨hcalls.resolves, fun r hr ↦ ?_⟩
    obtain ⟨o, ho, hr⟩ := List.mem_flatMap.1 hr
    exact operandsWellFormed_resolvesIn hargs o ho r hr
  | .not inner, h => by
    have hinner : inner.WellFormed p v s slots := h
    exact hinner.resolvesIn
  | .binary _ _ _, ⟨hleft, hright⟩ =>
    Program.resolvesIn_binary.2 ⟨hleft.resolvesIn, hright.resolvesIn⟩
  | .number _, _ | .text _, _ | .var _, _ | .global _ _, _ | .raw _, _ => nofun

theorem operandsWellFormed_resolvesIn : ∀ {os : List Operand},
    operandsWellFormed p v s slots os → ∀ o ∈ os, p.ResolvesIn o
  | [], _ => nofun
  | _ :: _, ⟨ho, hrest⟩ =>
    List.forall_mem_cons.2 ⟨ho.resolvesIn, operandsWellFormed_resolvesIn hrest⟩

end

end

/-! ## Lowering resolves calls

The name is looked up before the operands are lowered, but nothing they do can change what it
means: lowering adds scopes and nothing else. -/

/-- Work on a program with the tables of `p`, in which all calls so far are resolved. -/
structure Work.Resolved (p : Program) (depth : Nat) (w : Work) : Prop where
  /-- The tables are those of `p`; only scopes were added. -/
  grown : Program.Grown depth p w.program
  /-- The calls in the scopes of the arena are resolved. -/
  program : p.ResolvesAll w.program.scopes
  /-- The calls in the scope being filled are resolved. -/
  scope : ∀ r ∈ w.scope.calls, p.Resolves r

/-- A step that leaves resolved code only, and gives values of which `Q` holds. -/
structure Resolving {α : Type} (p : Program) (depth : Nat) (x : Lowering α) (Q : α → Prop) :
    Prop where
  /-- Whether it fails or not, the scopes it leaves in the arena are resolved. -/
  left : ∀ {w}, w.Resolved p depth →
    Program.Grown depth p (after x w).program ∧ p.ResolvesAll (after x w).program.scopes
  /-- If it does not fail, the scope being filled is resolved too and `Q` holds of the value. -/
  ok : ∀ {w a w'}, w.Resolved p depth → x w = .ok a w' →
    (∀ r ∈ w'.scope.calls, p.Resolves r) ∧ Q a

namespace Resolving

variable {α β : Type} {p : Program} {depth : Nat} {Q : α → Prop} {R : β → Prop}

/-- A step that succeeds leads to work of the same kind. -/
theorem next {x : Lowering α} (hx : Resolving p depth x Q) {w w' : Work} {a : α}
    (hw : w.Resolved p depth) (h : x w = .ok a w') : w'.Resolved p depth := by
  obtain ⟨hgrown, hprogram⟩ := after_of_ok h ▸ hx.left hw
  exact ⟨hgrown, hprogram, (hx.ok hw h).1⟩

theorem bind {x : Lowering α} {f : α → Lowering β} (hx : Resolving p depth x Q)
    (hf : ∀ a, Q a → Resolving p depth (f a) R) : Resolving p depth (x >>= f) R where
  left {w} hw := by
    cases h : x w with
    | ok a t =>
      rw [after_bind_of_ok h]
      exact (hf a (hx.ok hw h).2).left (hx.next hw h)
    | error e t =>
      rw [after_bind_of_error h, ← after_of_error h]
      exact hx.left hw
  ok {w b w'} hw h := by
    obtain ⟨a, t, hxt, hft⟩ := bind_eq_ok.1 h
    exact (hf a (hx.ok hw hxt).2).ok (hx.next hw hxt) hft

/-- A quiet step puts no code anywhere. -/
theorem of_quiet {x : Lowering α} (hx : Quiet x)
    (hQ : ∀ {w a w'}, w.Resolved p depth → x w = .ok a w' → Q a) : Resolving p depth x Q where
  left {w} hw := by
    rw [(hx w).1]
    exact ⟨hw.grown, hw.program⟩
  ok {w a w'} hw h := by
    have hcode := ((hx w).2 h).instructions
    rw [Scope.calls, hcode]
    exact ⟨hw.scope, hQ hw h⟩

theorem pure {a : α} (ha : Q a) : Resolving p depth (pure a) Q := by
  refine .of_quiet (.pure a) fun _ h ↦ ?_
  obtain ⟨rfl, -⟩ := pure_eq_ok.1 h
  exact ha

theorem throw (e : Problem) : Resolving p depth (throw e : Lowering α) Q :=
  .of_quiet (.throw e) fun _ h ↦ absurd h throw_ne_ok

theorem get_bind {f : Work → Lowering β} (hf : ∀ w, Resolving p depth (f w) R) :
    Resolving p depth (get >>= f) R :=
  ⟨fun {w} hw ↦ (hf w).left hw, fun {w} _ _ hw h ↦ (hf w).ok hw h⟩

theorem modify_scope {g : Scope → Scope}
    (hg : ∀ s : Scope, (∀ r ∈ s.calls, p.Resolves r) → ∀ r ∈ (g s).calls, p.Resolves r) :
    Resolving p depth (modify fun w ↦ { w with scope := g w.scope } : Lowering PUnit)
      fun _ ↦ True where
  left hw := ⟨hw.grown, hw.program⟩
  ok {w a w'} hw h := by
    rw [modify_apply] at h
    cases h
    exact ⟨hg w.scope hw.scope, trivial⟩

end Resolving

namespace Lowering

variable {p : Program} {depth : Nat}

theorem resolving_emit {i : Instruction} (hi : ∀ o ∈ i.args, p.ResolvesIn o) :
    Resolving p depth (emit i) fun _ ↦ True := by
  refine .modify_scope (g := fun s ↦ { s with instructions := s.instructions.push i }) fun s hs ↦ ?_
  rw [Scope.calls, Array.toList_push, List.flatMap_append, List.forall_mem_append]
  refine ⟨hs, ?_⟩
  rw [List.flatMap_singleton]
  exact Program.resolves_calls.2 hi

theorem resolving_declareVar (ident : Identifier) :
    Resolving p depth (declareVar ident) fun _ ↦ True :=
  .modify_scope (g := fun s ↦ { s with vars := s.vars.push ident }) fun _ hs ↦ hs

theorem resolving_pushNumber (value : Float) (pos : Unit → Position) :
    Resolving p depth (pushNumber value pos) p.ResolvesIn := by
  refine .of_quiet (quiet_pushNumber value pos) fun {w o w'} hw h ↦ ?_
  rw [pushNumber, modify_bind, get_bind] at h
  obtain ⟨i, t, -, h₁⟩ := bind_eq_ok.1 h
  obtain ⟨rfl, -⟩ := pure_eq_ok.1 h₁
  exact Program.resolvesIn_number i

end Lowering

section

variable {p : Program} {depth : Nat}

/-- Work that goes on from a sound program is finished as it stands. -/
private theorem Work.Resolved.completes {w : Work} (hp : p.Sound) (hpos : 0 < depth)
    (hle : depth ≤ p.depth) (h : Program.Grown depth p w.program) :
    Completes w w.program w.scope := by
  refine ⟨?_, .refl, List.prefix_rfl, List.prefix_rfl⟩
  obtain ⟨new, hgrow, hnew⟩ := h
  rw [hgrow]
  exact hp.grow hpos hle hnew

/-- Growth changes no slot. -/
private theorem Program.Grown.resolves {q : Program} (h : Program.Grown depth p q) {r : CallRef}
    (hr : q.Resolves r) : p.Resolves r := by
  obtain ⟨new, rfl, -⟩ := h
  intro owner howner
  rw [← hr owner howner]
  cases owner <;> rfl

variable (hp : p.Sound) (hpos : 0 < depth) (hle : depth ≤ p.depth)

include hp hpos hle

theorem Expr.resolving_lowerHere (env : Env) (e : Expr) :
    Resolving p depth (e.lowerHere env) p.ResolvesIn := by
  refine .of_quiet (e.quiet_lowerHere env) fun {w o w'} hw h r hr ↦ ?_
  have hgrown : Program.Grown depth p w'.program := by
    rw [(e.quiet_lowerHere env).program h]
    exact hw.grown
  have hreads := e.lower_reads h (Work.Resolved.completes hp hpos hle hgrown)
  have hformed := hreads.wellFormed (Program.written_givesWellFormed (Nat.le_refl _))
  exact hgrown.resolves (hformed.resolvesIn r hr)

theorem Call.resolving_lower (env : Env) (c : Call) :
    Resolving p depth (c.lower env (.written env)) fun called ↦ ∀ collapse,
      ∀ o ∈ (Instruction.call called.1 called.2.1 c.name collapse called.2.2).args,
        p.ResolvesIn o := by
  have hquiet : Quiet (c.lower env (.written env)) := c.quiet_lower (Site.isQuiet_written env)
  refine .of_quiet hquiet fun {w called w'} hw h collapse o ho r hr ↦ ?_
  have hgrown : Program.Grown depth p w'.program := by
    rw [hquiet.program h]
    exact hw.grown
  have hreads := c.lower_reads h (Work.Resolved.completes hp hpos hle hgrown)
  obtain ⟨hcalls, hargs⟩ := hreads.wellFormed (Program.written_givesWellFormed (Nat.le_refl _))
  have hformed : (Instruction.call called.1 called.2.1 c.name collapse called.2.2).WellFormed
      w'.program env.layer.vocabulary w'.scope (env.vars w).length := .call hcalls hargs
  exact hgrown.resolves (operandsWellFormed_resolvesIn hformed.args o ho r hr)

omit hp hpos hle in
theorem resolving_lowerLet (env : Env) (name : String) (nameSpan : Span) {value : Operand}
    (hvalue : p.ResolvesIn value) :
    Resolving p depth (lowerLet env name nameSpan value) fun _ ↦ True := by
  have hrest : Resolving p depth (do
      let slot := (env.vars (← get)).length
      Lowering.declareVar ⟨.var, name, env.layer.pos nameSpan⟩
      let slot ← Lowering.fit slot .vars fun _ ↦ env.layer.pos nameSpan
      Lowering.emit .createVariable
      Lowering.emit (.setVariable slot value)) fun _ ↦ True :=
    .get_bind fun _ ↦ .bind (Lowering.resolving_declareVar _) fun _ _ ↦
      .bind (Q := fun _ ↦ True) (.of_quiet (Lowering.quiet_fit _ _ _) fun _ _ ↦ trivial) fun _ _ ↦
        .bind (Lowering.resolving_emit (by simp [Instruction.createVariable])) fun _ _ ↦
          Lowering.resolving_emit (by simp [Instruction.setVariable, hvalue])
  refine .get_bind fun w ↦ ?_
  dsimp only
  split
  · exact .throw _
  · split
    · exact .bind (Q := fun _ ↦ True) (.throw _) fun _ _ ↦ hrest
    · exact hrest

omit hp hpos hle in
theorem resolving_assignedSlot (env : Env) (name : String) (nameSpan : Span) :
    Resolving p depth (assignedSlot env name nameSpan) fun _ ↦ True := by
  refine .get_bind fun w ↦ ?_
  split
  · exact .of_quiet (Lowering.quiet_fit _ _ _) fun _ _ ↦ trivial
  · exact .throw _

end

section

variable {p : Program}

private theorem Program.ResolvesAll.grow {q : Program} {depth : Nat} {new : List Scope}
    (h : p.ResolvesAll q.scopes) (hnew : ∀ s ∈ new, s.calls = []) :
    p.ResolvesAll (q.grow depth new).scopes := by
  intro s hs r hr
  rcases Array.mem_append.1 hs with hs | hs
  · exact h s hs r hr
  · rw [hnew s (by simpa using hs)] at hr
    contradiction

private theorem Program.ResolvesAll.set {scopes : Array Scope} {id : ScopeId} {t : Scope}
    (h : p.ResolvesAll scopes) (ht : ∀ r ∈ t.calls, p.Resolves r) :
    p.ResolvesAll (scopes.setIfInBounds id t) := by
  intro s hs
  rcases Array.mem_or_eq_of_mem_setIfInBounds hs with hs | rfl
  · exact h s hs
  · exact ht

/-- A block is resolved if what it is filled with is. Until then an empty scope stands in its
place. -/
private theorem Block.resolving_lower_of {env : Env} {stmts : List Stmt} {span : Span}
    (hfill : ∀ vars id,
      Resolving p env.layer.depth (Block.fill env stmts span vars id) fun _ ↦ True) :
    Resolving p env.layer.depth ((Block.mk stmts span).lower env) fun _ ↦ True := by
  have hstart : ∀ {w : Work}, w.Resolved p env.layer.depth →
      (⟨w.program.grow env.layer.depth [env.nested], env.nested⟩ : Work).Resolved p
        env.layer.depth := fun {w} hw ↦
    { grown := hw.grown.trans ⟨[env.nested], rfl, by simp [Env.nested]⟩
      program := hw.program.grow (by simp [Env.nested, Scope.calls])
      scope := nofun }
  refine ⟨fun {w} hw ↦ ⟨hw.grown.trans (Block.grows_lower env (.mk stmts span) w).1, ?_⟩,
    fun {w place w'} hw h ↦ ⟨?_, trivial⟩⟩
  · rw [after, Block.lower_apply]
    cases word? (w.program.anonymous env.layer.depth).size with
    | none => exact (hstart hw).program
    | some place =>
      dsimp only
      cases h : Block.fill env stmts span w.scope.vars.toList w.program.scopes.size
          ⟨w.program.grow env.layer.depth [env.nested], env.nested⟩ with
      | error e t => exact after_of_error h ▸ ((hfill _ _).left (hstart hw)).2
      | ok u t =>
        have ht := (hfill _ _).next (hstart hw) h
        exact ht.program.set ht.scope
  -- the scope that is filled goes on where it was
  · rw [Block.lower_apply] at h
    split at h
    · contradiction
    · split at h
      · contradiction
      · cases h
        exact hw.scope

mutual

theorem Stmt.resolving_lower (env : Env) (hp : p.Sound) (hpos : 0 < env.layer.depth)
    (hle : env.layer.depth ≤ p.depth) : ∀ s : Stmt,
      Resolving p env.layer.depth (s.lower env) fun _ ↦ True
  | .break_ _ => .bind (Lowering.resolving_pushNumber _ _) fun _ ho ↦
    Lowering.resolving_emit (by simp [Instruction.leave, ho])
  | .call c => .bind (c.resolving_lower hp hpos hle env) fun _ hcalls ↦
    Lowering.resolving_emit (hcalls _)
  | .let_ name nameSpan value _ => .bind (value.resolving_lowerHere hp hpos hle env) fun _ ho ↦
    resolving_lowerLet env name nameSpan ho
  | .assign name nameSpan op value _ => by
    rw [Stmt.lower]
    refine .bind (resolving_assignedSlot env name nameSpan) fun slot _ ↦
      .bind (value.resolving_lowerHere hp hpos hle env) fun o ho ↦ ?_
    split <;> exact Lowering.resolving_emit (by simp [Instruction.setVariable, ho])
  | .return_ (some value) _ => .bind (value.resolving_lowerHere hp hpos hle env) fun _ ho ↦
    Lowering.resolving_emit (by simp [Instruction.leave, ho])
  | .return_ none _ => .bind (Lowering.resolving_pushNumber _ _) fun _ ho ↦
    Lowering.resolving_emit (by simp [Instruction.leave, ho])
  | .loop body _ => .bind (body.resolving_lower env hp hpos hle) fun _ _ ↦
    Lowering.resolving_emit (by simp [Instruction.loop])
  | .if_ cond body rest _ => .bind (cond.resolving_lowerHere hp hpos hle env) fun _ ho ↦
    .bind (body.resolving_lower env hp hpos hle) fun _ _ ↦
      .bind (rest.resolving_lower env hp hpos hle (by simp [ho])) fun _ hsections ↦
        Lowering.resolving_emit (by simpa [Instruction.choose, or_imp, forall_and] using hsections)
  | .lone _ _ => .throw _

theorem resolving_lowerStmts (env : Env) (hp : p.Sound) (hpos : 0 < env.layer.depth)
    (hle : env.layer.depth ≤ p.depth) : ∀ ss : List Stmt,
      Resolving p env.layer.depth (lowerStmts env ss) fun _ ↦ True
  | [] => .pure trivial
  | s :: rest => .bind (s.resolving_lower env hp hpos hle) fun _ _ ↦
    resolving_lowerStmts env hp hpos hle rest

theorem Block.resolving_lower (env : Env) (hp : p.Sound) (hpos : 0 < env.layer.depth)
    (hle : env.layer.depth ≤ p.depth) : ∀ b : Block,
      Resolving p env.layer.depth (b.lower env) fun _ ↦ True
  | .mk stmts _ => Block.resolving_lower_of fun vars id ↦
    .bind (resolving_lowerStmts (env.enter vars id) hp hpos hle stmts) fun _ _ ↦
      .bind (Lowering.resolving_pushNumber _ _) fun _ ho ↦
        Lowering.resolving_emit (by simp [Instruction.leave, ho])

theorem Branches.resolving_lower (env : Env) (hp : p.Sound) (hpos : 0 < env.layer.depth)
    (hle : env.layer.depth ≤ p.depth) {done : List Operand}
    (hdone : ∀ o ∈ done, p.ResolvesIn o) : ∀ b : Branches,
      Resolving p env.layer.depth (b.lower env done) fun os ↦ ∀ o ∈ os, p.ResolvesIn o
  | .done => .pure (by simpa using hdone)
  | .else_ body => .bind (body.resolving_lower env hp hpos hle) fun _ _ ↦
    .pure (by simpa [or_imp, forall_and] using hdone)
  | .elif cond body rest => .bind (cond.resolving_lowerHere hp hpos hle env) fun _ ho ↦
    .bind (body.resolving_lower env hp hpos hle) fun _ _ ↦
      rest.resolving_lower env hp hpos hle (by simpa [ho] using hdone)

end

end

/-! ## Every program a session reaches

A layer that declares a callable again keeps its slot, so what older code says stays true. A layer
that fails leaves code that was resolved when it was written. -/

namespace Program.Resolved

variable {l : Layer} {items : List Item} {p q : Program}

/-- What lowering a body leaves is resolved. -/
private theorem lowerBody (h : p.Resolved) (hp : p.Sound) (hl : 0 < l.depth)
    (hdepth : p.depth = l.depth) (owner : Owner) (body : Block) :
    (after (CharacterScript.lowerBody l owner body) p).Resolved := by
  have hroot : (p.addRoot (.root l.depth owner)).Sound := hp.addRoot ⟨hl, hdepth.symm.le⟩ rfl
  have hslots : ∀ {r}, (p.addRoot (.root l.depth owner)).Resolves r ↔ p.Resolves r :=
    forall_congr' fun other ↦ by cases other <;> exact Iff.rfl
  have hstart : (⟨p.addRoot (.root l.depth owner), .root l.depth owner⟩ : Work).Resolved
      (p.addRoot (.root l.depth owner)) l.depth := by
    refine ⟨.refl, fun s hs r hr ↦ ?_, by simp [Scope.calls, Scope.root]⟩
    rcases Array.mem_push.1 hs with hs | rfl
    · exact hslots.2 (h s hs r hr)
    · contradiction
  have hrun := resolving_lowerStmts (Env.body l owner p) hroot hl hdepth.symm.le body.stmts
  -- the tables are those of `p` until the end
  have hend : ∀ {t : Program} {scopes : Array Scope},
      Program.Grown l.depth (p.addRoot (.root l.depth owner)) t →
      (p.addRoot (.root l.depth owner)).ResolvesAll scopes →
      ({ t with scopes } : Program).Resolved := by
    rintro _ scopes ⟨new, rfl, -⟩ hall s hs r hr other hother
    rw [← hall s hs r hr other hother]
    cases other <;> rfl
  rw [after, lowerBody_apply]
  cases hrunning : lowerStmts (Env.body l owner p) body.stmts
      ⟨p.addRoot (.root l.depth owner), .root l.depth owner⟩ with
  | error e t =>
    obtain ⟨hgrown, hall⟩ := after_of_error hrunning ▸ hrun.left hstart
    exact hend hgrown hall
  | ok u t =>
    have ht := hrun.next hstart hrunning
    refine hend ht.grown (ht.program.set ?_)
    -- the last instruction has no operands
    rw [Scope.calls, Array.toList_push, List.flatMap_append, List.forall_mem_append]
    exact ⟨ht.scope, by simp [Instruction.loopback, Instruction.calls]⟩

/-- Code that stays, in a program that goes on, stays resolved. -/
private theorem follows {declares : Owner → Prop} {depth : Nat} (h : p.Resolved)
    (hfollows : p.Follows depth declares q) (hscopes : q.scopes = p.scopes) : q.Resolved := by
  intro s hs r hr
  rw [hscopes] at hs
  exact hfollows.resolves (h s hs r hr)

theorem step (h : p.Resolved) (hp : p.Sound) (hl : 0 < l.depth) (hdepth : p.depth = l.depth)
    (hstep : l.Step items p q) : q.Resolved := by
  have hfollows := Layer.follows_step hl hstep
  cases hstep with
  | declare _ hi => exact h.follows hfollows (by cases hi <;> rfl)
  | record | expand => exact h.follows hfollows rfl
  | lower => exact h.lowerBody hp hl hdepth _ _
  | @setBody owner _ _ id => exact h.follows hfollows (p.setBody_scopes owner id)

end Program.Resolved

namespace Session

theorem Reachable.resolved {s : Session} (h : s.Reachable) : s.program.Resolved := by
  induction h with
  | new vocabulary entryFile =>
    intro s hs
    exact absurd hs (Array.not_mem_empty s)
  | @layer s hs source ih =>
    refine compileLayer_induction hs.sound ?_ fun _ hp hdepth hprogram hstep ↦
      hprogram.step hp (Nat.succ_pos _) hdepth hstep
    intro t ht r hr owner howner
    rw [← ih t ht r hr owner howner]
    cases owner <;> rfl

end Session

open Image in
/-- In all that a session goes on to, the slot is that of a callable with the name of the owner, and
in each image that is made there it holds that callable. -/
def Session.KeepsSlot (s : Session) (owner : Owner) (slot : Slot) : Prop :=
  ∀ {t}, s.Leads t → ∃ c, t.program.callable? owner = some c ∧ c.ident.name = owner.name ∧
    t.program.slot? owner = some slot ∧
    ∀ {depth v bytes}, image t.program depth v = .ok bytes →
      SlotHolds v bytes slot ((bodyAt? t.program depth c).map (c, ·))

theorem Session.Reachable.keepsSlot {s : Session} (hs : s.Reachable) {owner : Owner}
    {slot : Image.Slot} (hslot : s.program.slot? owner = some slot) : s.KeepsSlot owner slot := by
  intro t ht
  have hslot' := ht.slot? hs hslot
  obtain ⟨c, hc⟩ := Program.slot?_isSome_iff.1 ⟨slot, hslot'⟩
  exact ⟨c, hc, (ht.reachable hs).named.callables hc, hslot',
    fun himage ↦ Image.slotHolds_of_image himage hc hslot'⟩

/-- Tables only grow and ids never move. Whatever comes of a layer, the program goes on from the one
before it; a callable keeps its slot for good; the id of every call, in whatever code there is, is a
slot that is kept by the callable with the name of the call; and so is the word that a name alone is
lowered to, with the names of that program in sight. Where a definition is used, the names are those
in its tree: in front of them nothing is looked up any more (`Site.Bare`). -/
theorem ids_stay {s : Session} (hs : s.Reachable) :
    (∀ source, s.program.Follows (s.program.depth + 1) (DeclaredIn source)
        (s.compileLayer source).2.program ∧
      (s.compileLayer source).2.program.depth = s.program.depth + 1) ∧
    (∀ {owner slot}, s.program.slot? owner = some slot → s.KeepsSlot owner slot) ∧
    (∀ {id t}, s.program.scope? id = some t → ∀ r ∈ t.calls, ∀ {owner}, r.owner? = some owner →
      owner.name = r.name ∧ ∃ slot, r.slot? = some slot ∧ s.KeepsSlot owner slot) ∧
    ∀ {env : Env} {site : Site} {name fromTarget span} {w w' : Work} {id : UInt16},
      s.program.SameNames w.program → site.Bare env name span.start w →
      (Expr.name name fromTarget span).lower env site w = .ok (.raw id) w' →
      s.KeepsSlot (.script name) (.script id.toNat) := by
  refine ⟨fun source ↦ ?_, hs.keepsSlot, fun {id t} hscope r hr owner howner ↦ ?_,
    fun hw hsite h ↦ hs.keepsSlot ?_⟩
  · exact ⟨Session.follows_compileLayer hs.sound source,
      (Session.keeps_compileLayer hs.sound source).2⟩
  · have hslot := hs.resolved t (Array.mem_of_getElem? hscope) r hr owner howner
    obtain ⟨slot, heq⟩ := CallRef.slot?_of_owner? howner
    exact ⟨CallRef.name_owner? howner, slot, heq, hs.keepsSlot (hslot.trans heq)⟩
  · rw [hsite.lower_eq] at h
    rw [Program.slot?, ← hw.scriptId?, Env.scriptId?_of_plainName h, Option.map_some]

theorem Sample.mem_calls_of_callsFirst {t : Scope}
    (h : t.instructions.toList.any callsFirst = true) : ⟨.function, 0, "add"⟩ ∈ t.calls := by
  obtain ⟨i, hi, hcalls⟩ := List.any_eq_true.1 h
  obtain ⟨o, ho, hcall⟩ := List.any_eq_true.1 hcalls
  refine List.mem_flatMap.2 ⟨i, hi, List.mem_flatMap.2 ⟨o, ho, ?_⟩⟩
  split at hcall
  next => exact List.mem_cons_self
  next => contradiction

/-- In the sample, the innermost scope calls the function `add`, which has the first slot and keeps
it. The name of a script alone is a word, and the script keeps the slot of that number. -/
theorem ids_stay_sample :
    (∃ t r, (Sample.start.compileLayer Sample.source).2.program.scope? 4 = some t ∧ r ∈ t.calls ∧
      r.owner? = some (.function "add") ∧ r.slot? = some (.function 0) ∧
      (Sample.start.compileLayer Sample.source).2.KeepsSlot (.function "add") (.function 0)) ∧
    ∃ w, (Expr.name "other" false ⟨0, 0⟩).lower Sample.mainBody (.inside Sample.mainBody default)
        (Sample.startWork (Sample.start.compileLayer Sample.twoScripts).2.program) =
          .ok (.raw 1) w ∧
      (Sample.start.compileLayer Sample.twoScripts).2.KeepsSlot (.script "other") (.script 1) := by
  constructor
  · obtain ⟨-, -, -, hscope⟩ := Sample.compiles
    obtain ⟨t, ht, heq⟩ := Option.map_eq_some_iff.1 hscope
    simp only [Prod.mk.injEq] at heq
    have hmem : ⟨.function, 0, "add"⟩ ∈ t.calls := Sample.mem_calls_of_callsFirst heq.2.2
    obtain ⟨-, -, hcode, -⟩ := ids_stay (Sample.reachable_start.layer Sample.source)
    obtain ⟨-, slot, hslot, hkeeps⟩ := hcode ht _ hmem rfl
    cases hslot
    exact ⟨t, _, ht, hmem, rfl, rfl, hkeeps⟩
  · have hreachable := Sample.reachable_start.layer Sample.twoScripts
    obtain ⟨-, -, -, hslot, hid, -⟩ := Sample.twoScripts_found
    generalize (Sample.start.compileLayer Sample.twoScripts).2 = s at hreachable hslot hid ⊢
    have hsite : (Site.inside Sample.mainBody default).Bare Sample.mainBody "other"
        (⟨0, 0⟩ : Span).start (Sample.startWork s.program) := .inr ⟨default, rfl⟩
    have hlowered : (Expr.name "other" false ⟨0, 0⟩).lower Sample.mainBody
        (.inside Sample.mainBody default) (Sample.startWork s.program)
          = .ok (.raw 1) (Sample.startWork s.program) :=
      hsite.lower_eq.trans (Env.plainName_of_script hslot hid)
    obtain ⟨-, -, -, hnames⟩ := ids_stay hreachable
    exact ⟨_, hlowered, hnames .refl hsite hlowered⟩

end CharacterScript
