import CharacterScript.Proofs.Lowering.Scopes

/-!
# Lowered code is well formed

An operand refers to other things by number: to the pools of its scope, to the visible variables, to
the tables of callables and to the commands of the runtime. `Operand.WellFormed` says that each of
these numbers is right, through all operands of calls and operators. `accepted_code_wellFormed` says
it of all code of a layer that was accepted.

## Readings

Nothing here is about lowering. That a reading only gives well-formed operands is a property of the
reading (`Reading.GivesWellFormed`), and it carries over from the parts to the whole of an
expression, whatever the expression is.

## What a runtime relies on

A runtime checks nothing: it takes an index as an index into the pool at hand, and a slot as one
of the variables that are there. So code that is well formed never makes it look up what is not
there. How many operands a call has is part of this, since they are read one by one without marks
between them.
-/

namespace CharacterScript

/-! ## Well-formed code

An instruction is well formed if it is one that is known and all its operands are. -/

mutual

/-- Every number in the operand is right: indices lie within the pools of the scope `s`, slots among
so many visible variables, and calls are calls of what they name. -/
def Operand.WellFormed (p : Program) (v : Vocabulary) (s : Scope) (slots : Nat) : Operand → Prop
  | .number index => index.toNat < s.numbers.size
  | .text index => index.toNat < s.strings.size
  | .var slot => slot.toNat < slots
  | .global _ _ => True
  | .raw _ => True
  | .call target id name args => p.Calls v name target id args ∧ operandsWellFormed p v s slots args
  | .not inner => inner.WellFormed p v s slots
  | .binary _ left right => left.WellFormed p v s slots ∧ right.WellFormed p v s slots

def operandsWellFormed (p : Program) (v : Vocabulary) (s : Scope) (slots : Nat) :
    List Operand → Prop
  | [] => True
  | o :: rest => o.WellFormed p v s slots ∧ operandsWellFormed p v s slots rest

end

/-- What an instruction can look like: one of those that lowering uses itself, or a command with the
operands it takes. -/
inductive Instruction.Shaped (v : Vocabulary) : Instruction → Prop
  | loopback : Shaped v .loopback
  | leave (value : Operand) (what : Leaves) : Shaped v (.leave value what)
  | createVariable : Shaped v .createVariable
  | setVariable (slot : UInt16) (value : Operand) : Shaped v (.setVariable slot value)
  | loop (scope : UInt16) : Shaped v (.loop scope)
  | choose (sections : List Operand) : Shaped v (.choose sections)
  | callFunction (id : UInt16) (name : String) (collapse : Bool) (args : List Operand) :
    Shaped v (.call .function id name collapse args)
  | callScript (id : UInt16) (name : String) (collapse : Bool) (args : List Operand) :
    Shaped v (.call .script id name collapse args)
  | command {name : String} {args : List Operand} {c : Vocabulary.Command}
    (hc : v.command? name = some c) (htakes : c.Takes args) : Shaped v ⟨name, args⟩

/-- An instruction of a known shape, whose operands all lead to something in the program. -/
structure Instruction.WellFormed (p : Program) (v : Vocabulary) (s : Scope) (slots : Nat)
    (i : Instruction) : Prop where
  /-- It is one of the instructions that lowering writes, or a command with operands it takes. -/
  shaped : i.Shaped v
  /-- The operands are well formed, inside calls as well. -/
  args : operandsWellFormed p v s slots i.args

section

variable {p : Program} {v : Vocabulary} {s : Scope} {slots : Nat}

theorem operandsWellFormed_append {os more : List Operand} :
    operandsWellFormed p v s slots (os ++ more) ↔
      operandsWellFormed p v s slots os ∧ operandsWellFormed p v s slots more := by
  induction os with
  | nil => simp [operandsWellFormed]
  | cons o os ih => simp [operandsWellFormed, ih, and_assoc]

/-- A call as a statement: a command stands for itself, and other calls are operands. -/
theorem Instruction.WellFormed.call {name : String} {target : CallTarget} {id : UInt16}
    {collapse : Bool} {args : List Operand} (h : p.Calls v name target id args)
    (hargs : operandsWellFormed p v s slots args) :
    (Instruction.call target id name collapse args).WellFormed p v s slots := by
  cases target with
  | function => exact ⟨.callFunction id name collapse args, ⟨h, hargs⟩, trivial⟩
  | script => exact ⟨.callScript id name collapse args, ⟨h, hargs⟩, trivial⟩
  | builtin =>
    obtain ⟨c, hc, -, htakes⟩ := h
    exact ⟨.command hc htakes, hargs⟩

/-! ## Expressions -/

/-- What the parts of an expression are read as is well formed. -/
structure Reading.GivesWellFormed (p : Program) (v : Vocabulary) (s : Scope) (slots : Nat)
    (r : Reading) : Prop where
  /-- A number is in the pool. -/
  number : ∀ {value i}, r.number value i → i.toNat < s.numbers.size
  /-- A string is in the pool. -/
  text : ∀ {value i}, r.text value i → i.toNat < s.strings.size
  /-- What a name stands for is well formed. -/
  name : ∀ {name fromTarget span o}, r.name name fromTarget span o → o.WellFormed p v s slots
  /-- A call that is read is one that can be made. -/
  call : ∀ {name target id args}, r.call name target id args → p.Calls v name target id args

variable {r : Reading}

mutual

theorem Expr.Reads.wellFormed (hr : r.GivesWellFormed p v s slots) : ∀ {e : Expr} {o : Operand},
    e.Reads r o → o.WellFormed p v s slots
  | .number _ _, _, ⟨_, rfl, hi⟩ => hr.number hi
  | .calculation _ _, _, ⟨_, _, rfl, _, hi⟩ => hr.number hi
  | .not _ _, _, ⟨_, rfl, hx⟩ => (Expr.Reads.wellFormed hr hx :)
  | .binary _ _ _ _, _, ⟨_, _, rfl, hx, hy⟩ =>
    ⟨Expr.Reads.wellFormed hr hx, Expr.Reads.wellFormed hr hy⟩
  | .call _ _, _, ⟨_, _, _, rfl, hc⟩ => Call.Reads.wellFormed hr hc
  | .name _ _ _, _, hname => hr.name hname

theorem Call.Reads.wellFormed (hr : r.GivesWellFormed p v s slots) : ∀ {c : Call}
    {target : CallTarget} {id : UInt16} {os : List Operand}, c.Reads r target id os →
      p.Calls v c.name target id os ∧ operandsWellFormed p v s slots os
  | .mk _ _ _ _ _, _, _, _, ⟨hcall, hargs⟩ => ⟨hr.call hcall, argsRead_wellFormed hr hargs⟩

theorem Arg.Reads.wellFormed (hr : r.GivesWellFormed p v s slots) : ∀ {a : Arg} {o : Operand},
    a.Reads r o → o.WellFormed p v s slots
  | .expr _, _, he => Expr.Reads.wellFormed hr he
  | .text _ _, _, ⟨_, rfl, hi⟩ => hr.text hi

theorem argsRead_wellFormed (hr : r.GivesWellFormed p v s slots) : ∀ {as : List Arg}
    {os : List Operand}, argsRead r as os → operandsWellFormed p v s slots os
  | [], _, rfl => trivial
  | _ :: _, _, ⟨_, _, rfl, ha, hrest⟩ =>
    ⟨Arg.Reads.wellFormed hr ha, argsRead_wellFormed hr hrest⟩

end

end

namespace Program

variable {p : Program} {l : Layer} {vars : List Identifier} {s : Scope} {slots : Nat}

theorem Names.wellFormed {name : String} {fromTarget : Bool} {o : Operand}
    (h : p.Names l.vocabulary vars name fromTarget o) (hvars : vars.length ≤ slots) :
    o.WellFormed p l.vocabulary s slots := by
  rw [Names] at h
  split at h
  next k hk =>
    obtain ⟨slot, rfl, rfl⟩ := h
    exact (List.findIdx?_eq_some_iff_findIdx_eq.1 hk).1.trans_le hvars
  next =>
    split at h
    · obtain ⟨id, -, rfl⟩ := h
      trivial
    · obtain ⟨g, -, rfl⟩ := h
      trivial

theorem inside_givesWellFormed (hvars : vars.length ≤ slots) :
    (p.inside l vars s).GivesWellFormed p l.vocabulary s slots where
  number h := (Array.getElem?_eq_some_iff.1 h).1
  text h := (Array.getElem?_eq_some_iff.1 h).1
  name h := Names.wellFormed h hvars
  call h := h

/-- Code as it was written is well formed, also where a definition stands for it. -/
theorem written_givesWellFormed (hvars : vars.length ≤ slots) :
    (p.written l vars s).GivesWellFormed p l.vocabulary s slots where
  number h := (Array.getElem?_eq_some_iff.1 h).1
  text h := (Array.getElem?_eq_some_iff.1 h).1
  name h := by
    dsimp only [written] at h
    split at h
    · exact Names.wellFormed h hvars
    · obtain ⟨e, -, htree⟩ := h
      exact htree.wellFormed (inside_givesWellFormed hvars)
  call h := h

end Program

/-! ## Statements -/

section

variable {p : Program} {l : Layer} {id : ScopeId} {s : Scope} {slots : Nat}

private theorem Branches.Compiled.wellFormed {vars : List Identifier}
    (hr : (p.written l vars s).GivesWellFormed p l.vocabulary s slots) : ∀ {b : Branches}
    {place : Nat} {os : List Operand}, b.Compiled p l (.sound p l) id s vars place os →
      operandsWellFormed p l.vocabulary s slots os
  | .done, _, _, rfl => trivial
  | .else_ _, _, _, ⟨_, _, rfl⟩ => ⟨trivial, trivial, trivial⟩
  | .elif _ _ _, _, _, ⟨_, _, _, hcond, _, hrest, rfl⟩ =>
    ⟨trivial, hcond.wellFormed hr, trivial, Branches.Compiled.wellFormed hr hrest⟩

private theorem Stmt.Compiled.wellFormed {vars : List Identifier} {place : Nat} {stmt : Stmt}
    {is : List Instruction} (h : stmt.Compiled p l (.sound p l) id s vars place is)
    (hslots : (vars ++ stmt.declared l).length ≤ slots) :
    ∀ i ∈ is, i.WellFormed p l.vocabulary s slots := by
  have hvars : vars.length ≤ slots := by
    rw [List.length_append] at hslots
    exact Nat.le_of_add_right_le hslots
  have hr : (p.written l vars s).GivesWellFormed p l.vocabulary s slots :=
    Program.written_givesWellFormed hvars
  have hnumber : ∀ {i : UInt16} {x}, s.numbers[i.toNat]? = some x → i.toNat < s.numbers.size :=
    fun hi ↦ (Array.getElem?_eq_some_iff.1 hi).1
  cases stmt with
  | break_ span =>
    obtain ⟨i, hi, rfl⟩ := h
    rw [List.forall_mem_singleton]
    exact ⟨.leave _ _, hnumber hi, trivial, trivial⟩
  | call c =>
    obtain ⟨target, n, os, hread, rfl⟩ := h
    rw [List.forall_mem_singleton]
    -- a command that is called as a statement is checked by its own name
    obtain ⟨hcalls, hos⟩ := hread.wellFormed hr
    exact .call hcalls hos
  | let_ name nameSpan value span =>
    obtain ⟨o, slot, hread, hslot, rfl⟩ := h
    -- the slot is the one of the variable that the statement itself declares
    have hlt : slot.toNat < slots := by
      rw [List.length_append] at hslots
      exact hslot ▸ hslots
    rw [List.forall_mem_cons, List.forall_mem_singleton]
    exact ⟨⟨.createVariable, trivial, trivial⟩,
      ⟨.setVariable _ _, hlt, hread.wellFormed hr, trivial⟩⟩
  | assign name nameSpan op value span =>
    obtain ⟨slot, o, hfind, hread, rfl⟩ := h
    have hlt : slot.toNat < slots :=
      (List.findIdx?_eq_some_iff_findIdx_eq.1 hfind).1.trans_le hvars
    have ho := hread.wellFormed hr
    rw [List.forall_mem_singleton]
    refine ⟨.setVariable _ _, hlt, ?_, trivial⟩
    cases op with
    | none => exact ho
    | some op => exact ⟨hlt, ho⟩
  | return_ value span =>
    cases value with
    | none =>
      obtain ⟨i, hi, rfl⟩ := h
      rw [List.forall_mem_singleton]
      exact ⟨.leave _ _, hnumber hi, trivial, trivial⟩
    | some value =>
      obtain ⟨o, hread, rfl⟩ := h
      rw [List.forall_mem_singleton]
      exact ⟨.leave _ _, hread.wellFormed hr, trivial, trivial⟩
  | loop body span =>
    obtain ⟨w, -, rfl⟩ := h
    rw [List.forall_mem_singleton]
    exact ⟨.loop _, trivial, trivial⟩
  | if_ cond body rest span =>
    obtain ⟨o, w, sections, hcond, -, hrest, rfl⟩ := h
    rw [List.forall_mem_singleton]
    refine ⟨.choose _, trivial, hcond.wellFormed hr, trivial, ?_⟩
    exact operandsWellFormed_append.2 ⟨hrest.wellFormed hr, trivial, trivial⟩
  | lone name span => contradiction

private theorem stmtsCompiled.wellFormed {stmts : List Stmt} {vars : List Identifier} {place : Nat}
    {is : List Instruction} (h : stmtsCompiled p l (.sound p l) id s vars place stmts is)
    (hslots : vars.length + (declaredVars l stmts).length ≤ slots) :
    ∀ i ∈ is, i.WellFormed p l.vocabulary s slots := by
  induction stmts generalizing vars place is with
  | nil =>
    obtain rfl : is = [] := h
    exact List.forall_mem_nil _
  | cons stmt rest ih =>
    obtain ⟨first, more, rfl, hstmt, -, hrest⟩ := h
    -- the variables visible after the statement are still at most so many
    rw [declaredVars, List.flatMap_cons, List.length_append, ← Nat.add_assoc,
      ← List.length_append] at hslots
    rw [List.forall_mem_append]
    exact ⟨hstmt.wellFormed (Nat.le_of_add_right_le hslots), ih hrest hslots⟩

theorem Scope.Filled.wellFormed (h : s.Filled p l (.sound p l) id) (hs : p.scope? id = some s) :
    ∀ i ∈ s.instructions.toList, i.WellFormed p l.vocabulary s (p.allVars id).length := by
  obtain ⟨vars, place, stmts, is, last, hcode, hlast, hstmts, hshows⟩ := h.code
  rw [hcode, List.forall_mem_append, List.forall_mem_singleton]
  refine ⟨hstmts.wellFormed (hshows.le_allVars hs), ?_⟩
  rw [Scope.EndsWith] at hlast
  split at hlast
  · rw [hlast]
    exact ⟨.loopback, trivial⟩
  · obtain ⟨i, hi, rfl⟩ := hlast
    exact ⟨.leave _ _, (Array.getElem?_eq_some_iff.1 hi).1, trivial, trivial⟩

end

/-! ## Accepted layers

Every scope of an accepted layer was made from some statements, so what holds of the code of all
statements holds of all scopes. -/

/-- All code of a layer that a session accepts is well formed. -/
theorem accepted_code_wellFormed {s s' : Session} {source : String} {depth : Nat}
    (hs : s.Reachable) (h : s.compileLayer source = (.ok depth, s')) {id : ScopeId} {t : Scope}
    (ht : s'.program.scope? id = some t) (hdepth : t.depth = depth) :
    ∀ i ∈ t.instructions.toList,
      i.WellFormed s'.program s'.vocabulary t (s'.program.allVars id).length := by
  obtain ⟨hd, hvocabulary, -⟩ := Session.compileLayer_ok h
  obtain ⟨items, -, hcompiled⟩ := hs.compiled h
  rw [hvocabulary]
  exact (hcompiled.filled ht (hdepth.trans hd)).wellFormed ht

/-- In the sample, the innermost scope has a call with operands and its terminator. -/
theorem accepted_code_wellFormed_sample :
    ∃ s t, Sample.start.compileLayer Sample.source = (.ok 1, s) ∧ s.program.scope? 4 = some t ∧
      t.depth = 1 ∧ t.instructions.size = 2 ∧ ∀ i ∈ t.instructions.toList,
        i.WellFormed s.program s.vocabulary t (s.program.allVars 4).length := by
  obtain ⟨s, hs⟩ := Sample.accepted
  obtain ⟨-, -, -, hscope⟩ := Sample.compiles
  rw [hs] at hscope
  obtain ⟨t, ht, heq⟩ := Option.map_eq_some_iff.1 hscope
  simp only [Prod.mk.injEq] at heq
  obtain ⟨hdepth, hsize, -⟩ := heq
  exact ⟨s, t, hs, ht, hdepth, hsize,
    accepted_code_wellFormed Sample.reachable_start hs ht hdepth⟩

end CharacterScript
