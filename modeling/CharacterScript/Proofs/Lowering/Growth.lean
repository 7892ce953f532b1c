import CharacterScript.Layer.Lower
import CharacterScript.Proofs.Computation
import Mathlib.Order.Basic

/-!
# What lowering does to a program

Lowering adds to a program and changes nothing that was there. What it adds is a run of scopes, at
the end of the arena, and the ids of exactly those scopes, at the end of the pool of the layer:
`Program.grow`. This holds of every step and whether the step succeeds or not, so it is stated with
`after`, the state that a step leaves.

## Quiet steps

Lowering an expression is quieter still. It leaves the program alone and, when it succeeds, has only
put numbers and strings into the pools of the scope being filled.

## Failures included

A layer that fails leaves its scopes behind, and the session goes on with them. So what is said
here of a step is said of the state it leaves, success or not, and for that reason it is so
little: scopes are added, and their ids are in the pool.
-/

namespace CharacterScript

open Running

/-! ## Scopes and pools added

`Program.grow` adds scopes at the end of the arena and numbers them from there. Growing twice is
growing once by both, and with this all steps can be put together. -/

namespace Program

/-- The program with more scopes, all of them in the pool of the layer `depth`. -/
def grow (p : Program) (depth : Nat) (new : List Scope) : Program :=
  { p with
    scopes := p.scopes ++ new.toArray
    pools := p.pools.modify (depth - 1) (· ++ (List.range' p.scopes.size new.length).toArray) }

variable (p : Program) (depth : Nat) (new more : List Scope)

@[simp] theorem grow_depth : (p.grow depth new).depth = p.depth := rfl
@[simp] theorem grow_globals : (p.grow depth new).globals = p.globals := rfl
@[simp] theorem grow_functions : (p.grow depth new).functions = p.functions := rfl
@[simp] theorem grow_scripts : (p.grow depth new).scripts = p.scripts := rfl
@[simp] theorem grow_main : (p.grow depth new).main = p.main := rfl
@[simp] theorem grow_defines : (p.grow depth new).defines = p.defines := rfl
@[simp] theorem grow_layers : (p.grow depth new).layers = p.layers := rfl

@[simp] theorem grow_scopes : (p.grow depth new).scopes = p.scopes ++ new.toArray := rfl

theorem size_scopes_grow : (p.grow depth new).scopes.size = p.scopes.size + new.length := by
  simp

private theorem modify_append_nil (pools : Array (Array ScopeId)) (i : Nat) :
    pools.modify i (· ++ #[]) = pools := by
  apply Array.ext_getElem?
  intro j
  rw [Array.getElem?_modify]
  split <;> simp

private theorem modify_append_append (pools : Array (Array ScopeId)) (i : Nat)
    (a b : Array ScopeId) :
    (pools.modify i (· ++ a)).modify i (· ++ b) = pools.modify i (· ++ (a ++ b)) := by
  apply Array.ext_getElem?
  intro j
  rw [Array.getElem?_modify, Array.getElem?_modify, Array.getElem?_modify]
  split <;> simp [Function.comp_def]

theorem grow_nil : p.grow depth [] = p := by
  rw [grow, List.length_nil, List.range'_zero, modify_append_nil]
  simp

theorem grow_grow : (p.grow depth new).grow depth more = p.grow depth (new ++ more) := by
  have hids : (List.range' p.scopes.size new.length).toArray
      ++ (List.range' (p.scopes ++ new.toArray).size more.length).toArray
      = (List.range' p.scopes.size (new ++ more).length).toArray := by
    rw [List.append_toArray, List.length_append, ← List.range'_append]
    simp
  rw [grow, grow, modify_append_append, hids, grow]
  simp

theorem grow_inj (h : p.grow depth new = p.grow depth more) : new = more := by
  have hscopes := congrArg (fun q ↦ q.scopes.toList) h
  simpa using hscopes

/-- The pool of the layer gets the ids of the new scopes. -/
theorem anonymous_grow (hdepth : 0 < depth) (hpools : depth ≤ p.pools.size) :
    (p.grow depth new).anonymous depth
      = p.anonymous depth ++ (List.range' p.scopes.size new.length).toArray := by
  have hlt : depth - 1 < p.pools.size := by omega
  rw [anonymous, anonymous, if_neg (by omega), if_neg (by omega), grow, Array.getD_eq_getD_getElem?,
    Array.getD_eq_getD_getElem?, Array.getElem?_modify, if_pos rfl, Array.getElem?_eq_getElem hlt]
  rfl

/-- Filling in the first of the new scopes afterwards is the same as adding it filled. -/
theorem set_grow_cons (s t : Scope) :
    { p.grow depth (s :: new) with
      scopes := (p.grow depth (s :: new)).scopes.setIfInBounds p.scopes.size t }
      = p.grow depth (t :: new) := by
  have hset : (p.scopes ++ (s :: new).toArray).setIfInBounds p.scopes.size t
      = p.scopes ++ (t :: new).toArray := by
    apply Array.ext_getElem?
    intro i
    rw [Array.getElem?_setIfInBounds, Array.getElem?_append, Array.getElem?_append]
    by_cases hi : p.scopes.size = i
    · subst hi
      simp
    · rw [if_neg hi]
      split
      · rfl
      next hle =>
        -- behind the scope that is set both programs have the same new scopes
        obtain ⟨j, hj⟩ : ∃ j, i - p.scopes.size = j + 1 := ⟨i - p.scopes.size - 1, by omega⟩
        rw [hj]
        simp
  rw [grow, grow]
  simp only [List.length_cons]
  rw [hset]

/-- The program with one more scope, which is in no pool. -/
def addRoot (p : Program) (root : Scope) : Program :=
  { p with scopes := p.scopes.push root }

/-- Filling in such a scope after others were added is the same as adding it filled. -/
theorem set_grow_addRoot (s t : Scope) :
    { (p.addRoot s).grow depth new with
      scopes := ((p.addRoot s).grow depth new).scopes.setIfInBounds p.scopes.size t }
      = (p.addRoot t).grow depth new := by
  have hset : (p.scopes.push s ++ new.toArray).setIfInBounds p.scopes.size t
      = p.scopes.push t ++ new.toArray := by
    apply Array.ext_getElem?
    intro i
    rw [Array.getElem?_setIfInBounds, Array.getElem?_append, Array.getElem?_append]
    simp only [Array.size_push, Array.size_append, Array.getElem?_push]
    by_cases hi : p.scopes.size = i
    · subst hi
      have hlt : p.scopes.size < p.scopes.size + 1 + new.length := by omega
      simp [hlt]
    · rw [if_neg hi, if_neg (Ne.symm hi), if_neg (Ne.symm hi)]
  rw [grow, grow, addRoot, addRoot]
  simp only [Array.size_push]
  rw [hset]

/-- `q` is `p` with more scopes of the layer `depth`, each of them nested in another one. -/
def Grown (depth : Nat) (p q : Program) : Prop :=
  ∃ new, q = p.grow depth new ∧ ∀ s ∈ new, s.depth = depth ∧ s.parent.isSome

theorem Grown.refl {depth : Nat} {p : Program} : Grown depth p p :=
  ⟨[], (p.grow_nil depth).symm, by simp⟩

theorem Grown.trans {depth : Nat} {p q r : Program} (h : Grown depth p q)
    (h' : Grown depth q r) : Grown depth p r := by
  obtain ⟨new, rfl, hnew⟩ := h
  obtain ⟨more, rfl, hmore⟩ := h'
  refine ⟨new ++ more, grow_grow p depth new more, ?_⟩
  intro s hs
  rcases List.mem_append.1 hs with hs | hs
  · exact hnew s hs
  · exact hmore s hs

end Program

/-! ## Quiet steps -/

/-- Only the pools of a scope have grown. -/
structure Scope.Pooled (s s' : Scope) : Prop where
  /-- All but the pools is the same. -/
  eq : s' = { s with numbers := s'.numbers, strings := s'.strings }
  /-- Numbers keep their places. -/
  numbers : s.numbers.toList <+: s'.numbers.toList
  /-- Strings keep their places. -/
  strings : s.strings.toList <+: s'.strings.toList

namespace Scope.Pooled

theorem refl {s : Scope} : s.Pooled s :=
  ⟨rfl, List.prefix_rfl, List.prefix_rfl⟩

theorem trans {s t u : Scope} (h : s.Pooled t) (h' : t.Pooled u) : s.Pooled u := by
  refine ⟨?_, h.numbers.trans h'.numbers, h.strings.trans h'.strings⟩
  rw [h'.eq, h.eq]

theorem pushNumber (s : Scope) (x : Float32) :
    s.Pooled { s with numbers := s.numbers.push x } := by
  refine ⟨rfl, ?_, List.prefix_rfl⟩
  rw [Array.toList_push]
  exact List.prefix_append _ _

theorem pushString (s : Scope) (x : String) :
    s.Pooled { s with strings := s.strings.push x } := by
  refine ⟨rfl, List.prefix_rfl, ?_⟩
  rw [Array.toList_push]
  exact List.prefix_append _ _

theorem vars {s s' : Scope} (h : s.Pooled s') : s'.vars = s.vars := by
  rw [h.eq]

theorem instructions {s s' : Scope} (h : s.Pooled s') : s'.instructions = s.instructions := by
  rw [h.eq]

end Scope.Pooled

/-- A step that leaves the program alone and, if it succeeds, only fills pools. -/
def Quiet {α : Type} (x : Lowering α) : Prop :=
  ∀ w, (after x w).program = w.program ∧ ∀ {a w'}, x w = .ok a w' → w.scope.Pooled w'.scope

namespace Quiet

variable {α β : Type}

theorem program {x : Lowering α} (hx : Quiet x) {w w' : Work} {a : α} (h : x w = .ok a w') :
    w'.program = w.program := by
  rw [← (hx w).1, after_of_ok h]

theorem pure (a : α) : Quiet (pure a) := by
  intro w
  refine ⟨rfl, fun h ↦ ?_⟩
  obtain ⟨-, rfl⟩ := pure_eq_ok.1 h
  exact .refl

theorem throw (e : Problem) : Quiet (throw e : Lowering α) :=
  fun _ ↦ ⟨rfl, fun h ↦ absurd h throw_ne_ok⟩

theorem bind {x : Lowering α} {f : α → Lowering β} (hx : Quiet x) (hf : ∀ a, Quiet (f a)) :
    Quiet (x >>= f) := by
  intro w
  constructor
  · exact after_bind (R := fun v w : Work ↦ w.program = v.program) (fun huv hvw ↦ hvw.trans huv)
      (hx w).1 fun a t _ ↦ (hf a t).1
  · intro b w' h
    obtain ⟨a, t, hxt, hft⟩ := bind_eq_ok.1 h
    exact ((hx w).2 hxt).trans ((hf a t).2 hft)

theorem get_bind {f : Work → Lowering β} (hf : ∀ w, Quiet (f w)) : Quiet (get >>= f) :=
  fun w ↦ hf w w

end Quiet

namespace Lowering

theorem quiet_fit (n : Nat) (what : Limit) (pos : Unit → Position) : Quiet (fit n what pos) := by
  rw [fit]
  split
  · exact .pure _
  · exact .throw _

theorem quiet_pushNumber (value : Float) (pos : Unit → Position) :
    Quiet (pushNumber value pos) := by
  have hrest : Quiet (do
      let index ← fit ((← get).scope.numbers.size - 1) .numbers pos
      pure (Operand.number index)) :=
    .get_bind fun _ ↦ .bind (quiet_fit _ _ _) fun _ ↦ .pure _
  intro w
  obtain ⟨hprogram, hok⟩ := hrest
    { w with scope := { w.scope with numbers := w.scope.numbers.push (narrow value) } }
  exact ⟨hprogram, fun h ↦ (Scope.Pooled.pushNumber _ _).trans (hok h)⟩

theorem quiet_pushString (value : String) (pos : Unit → Position) :
    Quiet (pushString value pos) := by
  have hrest : Quiet (do
      let index ← fit ((← get).scope.strings.size - 1) .strings pos
      pure (Operand.text index)) :=
    .get_bind fun _ ↦ .bind (quiet_fit _ _ _) fun _ ↦ .pure _
  intro w
  obtain ⟨hprogram, hok⟩ := hrest
    { w with scope := { w.scope with strings := w.scope.strings.push value } }
  exact ⟨hprogram, fun h ↦ (Scope.Pooled.pushString _ _).trans (hok h)⟩

end Lowering

/-! ## Expressions are quiet -/

theorem Env.quiet_plainName (env : Env) (name : String) (fromTarget : Bool)
    (pos : Unit → Position) : Quiet (env.plainName name fromTarget pos) := by
  refine .get_bind fun w ↦ ?_
  split
  · exact .bind (Lowering.quiet_fit _ _ _) fun _ ↦ .pure _
  · split
    · exact .bind (Lowering.quiet_fit _ _ _) fun _ ↦ .pure _
    · split
      · exact .pure _
      · exact .throw _

theorem quiet_calculated (text : String) (pos : Unit → Position) : Quiet (calculated text pos) := by
  rw [calculated]
  split
  · exact .pure _
  · exact .throw _

theorem quiet_checkArgs (site : Site) (callee : Env.Callee) (name : String) (nameSpan : Span)
    (args : List Arg) (operands : List Operand) :
    Quiet (checkArgs site callee name nameSpan args operands) := by
  rw [checkArgs]
  dsimp only
  -- whether the number of arguments is right or not, the check of references comes last
  cases (operands.take callee.refCount).findIdx? (!·.isVar) with
  | none =>
    split <;> split
    · exact .bind (.throw _) fun _ ↦ .pure _
    · exact .pure _
    · exact .bind (.throw _) fun _ ↦ .pure _
    · exact .pure _
  | some index =>
    split <;> split
    · exact .bind (.throw _) fun _ ↦ .throw _
    · exact .throw _
    · exact .bind (.throw _) fun _ ↦ .throw _
    · exact .throw _

/-- A site whose names and calculations are quiet. -/
structure Site.IsQuiet (site : Site) : Prop where
  /-- A name leaves all but the pools as it was. -/
  name : ∀ s fromTarget span, Quiet (site.name s fromTarget span)
  /-- So does a calculation. -/
  calculate : ∀ text span, Quiet (site.calculate text span)

section

variable {env : Env} {site : Site}

mutual

theorem Expr.quiet_lower (hsite : site.IsQuiet) : ∀ e : Expr, Quiet (e.lower env site)
  | .number _ _ => Lowering.quiet_pushNumber _ _
  | .calculation _ _ => .bind (hsite.calculate _ _) fun _ ↦ Lowering.quiet_pushNumber _ _
  | .not inner _ => .bind (inner.quiet_lower hsite) fun _ ↦ .pure _
  | .binary _ left right _ =>
    .bind (left.quiet_lower hsite) fun _ ↦ .bind (right.quiet_lower hsite) fun _ ↦ .pure _
  | .call c _ => .bind (c.quiet_lower hsite) fun _ ↦ .pure _
  | .name _ _ _ => hsite.name _ _ _

theorem Call.quiet_lower (hsite : site.IsQuiet) : ∀ c : Call, Quiet (c.lower env site)
  | .mk name nameSpan _ args _ => by
    rw [Call.lower]
    refine .get_bind fun w ↦ ?_
    split
    · exact .throw _
    · exact .bind (Lowering.quiet_fit _ _ _) fun _ ↦
        .bind (quiet_lowerArgs hsite [] args) fun _ ↦
          .bind (quiet_checkArgs _ _ _ _ _ _) fun _ ↦ .pure _

theorem Arg.quiet_lower (hsite : site.IsQuiet) : ∀ a : Arg, Quiet (a.lower env site)
  | .expr e => e.quiet_lower hsite
  | .text _ _ => Lowering.quiet_pushString _ _

theorem quiet_lowerArgs (hsite : site.IsQuiet) (done : List Operand) : ∀ args : List Arg,
    Quiet (lowerArgs env site done args)
  | [] => .pure _
  | arg :: rest => .bind (arg.quiet_lower hsite) fun _ ↦ quiet_lowerArgs hsite _ rest

end

end

theorem Site.isQuiet_inside (env : Env) (pos : Position) : (inside env pos).IsQuiet where
  name s fromTarget _ := env.quiet_plainName s fromTarget fun _ ↦ pos
  calculate text _ := quiet_calculated text fun _ ↦ pos

theorem Site.isQuiet_written (env : Env) : (written env).IsQuiet where
  name s fromTarget span := by
    refine .get_bind fun w ↦ ?_
    dsimp only
    split
    · exact env.quiet_plainName _ _ _
    · split
      · exact .throw _
      · exact Expr.quiet_lower (isQuiet_inside env _) _
  calculate text span := .get_bind fun w ↦
    quiet_calculated (substituted env w text span.start) fun _ ↦ env.layer.pos span

theorem Expr.quiet_lowerHere (env : Env) (e : Expr) : Quiet (e.lowerHere env) :=
  e.quiet_lower (Site.isQuiet_written env)

/-! ## Statements grow the program

A block is the one statement that adds a scope of its own. It puts in an empty one first and
replaces it when it is filled, and in between the scopes of inner blocks come behind it. -/

/-- The same kind of scope at the same place in the tree of scopes. -/
structure Scope.SameHead (s s' : Scope) : Prop where
  /-- It belongs to the same layer. -/
  depth : s'.depth = s.depth
  /-- It is nested as deep. -/
  level : s'.level = s.level
  /-- It belongs to the same callable. -/
  owner : s'.owner = s.owner
  /-- It is in the same block. -/
  parent : s'.parent = s.parent

namespace Scope.SameHead

theorem refl {s : Scope} : s.SameHead s :=
  ⟨rfl, rfl, rfl, rfl⟩

theorem trans {s t u : Scope} (h : s.SameHead t) (h' : t.SameHead u) : s.SameHead u :=
  ⟨h'.depth.trans h.depth, h'.level.trans h.level, h'.owner.trans h.owner,
    h'.parent.trans h.parent⟩

end Scope.SameHead

theorem Scope.Pooled.sameHead {s s' : Scope} (h : s.Pooled s') : s.SameHead s' := by
  rw [h.eq]
  exact ⟨rfl, rfl, rfl, rfl⟩

/-- A step that adds scopes of the layer `depth` to the program and, if it succeeds, is back at the
scope it started with. -/
def Grows {α : Type} (depth : Nat) (x : Lowering α) : Prop :=
  ∀ w, Program.Grown depth w.program (after x w).program ∧
    ∀ {a w'}, x w = .ok a w' → w.scope.SameHead w'.scope

namespace Grows

variable {α β : Type} {depth : Nat}

theorem program {x : Lowering α} (hx : Grows depth x) {w w' : Work} {a : α}
    (h : x w = .ok a w') : Program.Grown depth w.program w'.program := by
  rw [← after_of_ok h]
  exact (hx w).1

theorem of_quiet {x : Lowering α} (hx : Quiet x) : Grows depth x := by
  intro w
  refine ⟨?_, fun h ↦ ((hx w).2 h).sameHead⟩
  rw [(hx w).1]
  exact .refl

theorem pure (a : α) : Grows depth (pure a) :=
  of_quiet (.pure a)

theorem throw (e : Problem) : Grows depth (throw e : Lowering α) :=
  of_quiet (.throw e)

theorem bind {x : Lowering α} {f : α → Lowering β} (hx : Grows depth x)
    (hf : ∀ a, Grows depth (f a)) : Grows depth (x >>= f) := by
  intro w
  constructor
  · exact after_bind (R := fun v w : Work ↦ Program.Grown depth v.program w.program)
      (fun huv hvw ↦ huv.trans hvw) (hx w).1 fun a t _ ↦ (hf a t).1
  · intro b w' h
    obtain ⟨a, t, hxt, hft⟩ := bind_eq_ok.1 h
    exact ((hx w).2 hxt).trans ((hf a t).2 hft)

theorem get_bind {f : Work → Lowering β} (hf : ∀ w, Grows depth (f w)) : Grows depth (get >>= f) :=
  fun w ↦ hf w w

/-- A change of the scope being filled that leaves its head alone. -/
theorem modify_scope {g : Scope → Scope} (hg : ∀ s : Scope, s.SameHead (g s)) :
    Grows depth (modify fun w ↦ { w with scope := g w.scope } : Lowering PUnit) := by
  intro w
  refine ⟨.refl, fun h ↦ ?_⟩
  rw [modify_apply] at h
  cases h
  exact hg w.scope

end Grows

namespace Lowering

variable {depth : Nat}

theorem grows_emit (i : Instruction) : Grows depth (emit i) :=
  .modify_scope (g := fun s ↦ { s with instructions := s.instructions.push i }) fun _ ↦
    ⟨rfl, rfl, rfl, rfl⟩

theorem grows_declareVar (ident : Identifier) : Grows depth (declareVar ident) :=
  .modify_scope (g := fun s ↦ { s with vars := s.vars.push ident }) fun _ ↦ ⟨rfl, rfl, rfl, rfl⟩

/-- Taking a place in the arena and in the pool adds one empty scope. -/
theorem allocate_pool {α : Type} (scope : Scope) (f : ScopeId → Nat → Lowering α) (w : Work) :
    (do
      let id ← allocate scope
      let place ← pool depth id
      f id place) w
      = f w.program.scopes.size (w.program.anonymous depth).size
          { w with program := w.program.grow depth [scope] } := by
  have hgrow : w.program.grow depth [scope] =
      { w.program with
        scopes := w.program.scopes.push scope
        pools := w.program.pools.modify (depth - 1) (·.push w.program.scopes.size) } := by
    rw [Program.grow]
    simp [List.range'_one]
  rw [hgrow]
  rfl

end Lowering

theorem grows_lowerLet {depth : Nat} (env : Env) (name : String) (nameSpan : Span)
    (value : Operand) : Grows depth (lowerLet env name nameSpan value) := by
  have hrest : Grows depth (do
      let slot := (env.vars (← get)).length
      Lowering.declareVar ⟨.var, name, env.layer.pos nameSpan⟩
      let slot ← Lowering.fit slot .vars fun _ ↦ env.layer.pos nameSpan
      Lowering.emit .createVariable
      Lowering.emit (.setVariable slot value)) :=
    .get_bind fun _ ↦ .bind (Lowering.grows_declareVar _) fun _ ↦
      .bind (.of_quiet (Lowering.quiet_fit _ _ _)) fun _ ↦
        .bind (Lowering.grows_emit _) fun _ ↦ Lowering.grows_emit _
  refine .get_bind fun w ↦ ?_
  dsimp only
  split
  · exact .throw _
  · split
    · exact .bind (.throw _) fun _ ↦ hrest
    · exact hrest

theorem grows_assignedSlot {depth : Nat} (env : Env) (name : String) (nameSpan : Span) :
    Grows depth (assignedSlot env name nameSpan) := by
  refine .get_bind fun w ↦ ?_
  split
  · exact .of_quiet (Lowering.quiet_fit _ _ _)
  · exact .throw _

/-- The filling of an anonymous scope, up to its last instruction. -/
def Block.fill (env : Env) (stmts : List Stmt) (span : Span) (vars : List Identifier)
    (id : ScopeId) : Lowering Unit := do
  lowerStmts (env.enter vars id) stmts
  let zero ← Lowering.pushNumber 0 fun _ ↦ env.layer.pos (Block.mk stmts span).endSpan
  Lowering.emit (.leave zero .scope)

/-- Lowering a block: its place is taken, and fits; then it is filled; then it is put into its
place, and the scope before it is the one being filled again. -/
theorem Block.lower_apply (env : Env) (stmts : List Stmt) (span : Span) (w : Work) :
    (Block.mk stmts span).lower env w =
      match word? (w.program.anonymous env.layer.depth).size with
      | none => .error (.limit (env.layer.pos span) .anonymousScopes)
          { w with program := w.program.grow env.layer.depth [env.nested] }
      | some place =>
        match Block.fill env stmts span w.scope.vars.toList w.program.scopes.size
            ⟨w.program.grow env.layer.depth [env.nested], env.nested⟩ with
        | .error e t => .error e t
        | .ok _ t => .ok place
            ⟨{ t.program with
                scopes := t.program.scopes.setIfInBounds w.program.scopes.size t.scope },
                  w.scope⟩ := by
  rw [Block.lower, Lowering.allocate_pool, Lowering.fit]
  cases word? (w.program.anonymous env.layer.depth).size with
  | none => rfl
  | some place =>
    rw [Block.fill]
    simp only [bind, pure, EStateM.bind, EStateM.pure, Lowering.swapScope]
    cases lowerStmts (env.enter w.scope.vars.toList w.program.scopes.size) stmts
        ⟨w.program.grow env.layer.depth [env.nested], env.nested⟩ with
    | error e t => rfl
    | ok _ t =>
      dsimp only
      cases Lowering.pushNumber 0 (fun _ ↦ env.layer.pos (Block.mk stmts span).endSpan) t with
      | error e t => rfl
      | ok zero t => rfl

/-- A block grows the program if filling it does: the empty scope that stands in its place is filled
in at the end, and until then it stays. -/
private theorem Block.grows_lower_of {env : Env} {stmts : List Stmt} {span : Span}
    (hfill : ∀ vars id, Grows env.layer.depth (Block.fill env stmts span vars id)) :
    Grows env.layer.depth ((Block.mk stmts span).lower env) := by
  intro w
  rw [after, Block.lower_apply]
  cases word? (w.program.anonymous env.layer.depth).size with
  | none => exact ⟨⟨[env.nested], rfl, by simp [Env.nested]⟩, fun h ↦ by contradiction⟩
  | some place =>
    obtain ⟨hgrown, hhead⟩ := hfill w.scope.vars.toList w.program.scopes.size
      ⟨w.program.grow env.layer.depth [env.nested], env.nested⟩
    obtain ⟨new, hnew, hall⟩ := hgrown
    dsimp only at hnew
    rw [Program.grow_grow] at hnew
    dsimp only
    cases h : Block.fill env stmts span w.scope.vars.toList w.program.scopes.size
        ⟨w.program.grow env.layer.depth [env.nested], env.nested⟩ with
    | error e t =>
      rw [after_of_error h] at hnew
      refine ⟨⟨_, hnew, ?_⟩, fun h ↦ by contradiction⟩
      intro s hs
      rcases List.mem_cons.1 hs with rfl | hs
      · exact ⟨rfl, rfl⟩
      · exact hall s hs
    | ok u t =>
      rw [after_of_ok h] at hnew
      have hscope := hhead h
      -- the scope that was filled takes the place of the empty one
      refine ⟨⟨t.scope :: new, ?_, ?_⟩, ?_⟩
      · dsimp only
        rw [hnew]
        exact Program.set_grow_cons _ _ _ _ _
      · intro s hs
        rcases List.mem_cons.1 hs with rfl | hs
        · exact ⟨hscope.depth, hscope.parent ▸ rfl⟩
        · exact hall s hs
      · intro a w' hok
        cases hok
        exact .refl

mutual

theorem Stmt.grows_lower (env : Env) : ∀ s : Stmt, Grows env.layer.depth (s.lower env)
  | .break_ _ =>
    .bind (.of_quiet (Lowering.quiet_pushNumber _ _)) fun _ ↦ Lowering.grows_emit _
  | .call c =>
    .bind (.of_quiet (c.quiet_lower (Site.isQuiet_written env))) fun _ ↦ Lowering.grows_emit _
  | .let_ _ _ value _ =>
    .bind (.of_quiet (value.quiet_lowerHere env)) fun _ ↦ grows_lowerLet env _ _ _
  | .assign _ _ op value _ => by
    rw [Stmt.lower]
    refine .bind (grows_assignedSlot env _ _) fun _ ↦
      .bind (.of_quiet (value.quiet_lowerHere env)) fun _ ↦ ?_
    split <;> exact Lowering.grows_emit _
  | .return_ (some value) _ =>
    .bind (.of_quiet (value.quiet_lowerHere env)) fun _ ↦ Lowering.grows_emit _
  | .return_ none _ =>
    .bind (.of_quiet (Lowering.quiet_pushNumber _ _)) fun _ ↦ Lowering.grows_emit _
  | .loop body _ => .bind (body.grows_lower env) fun _ ↦ Lowering.grows_emit _
  | .if_ cond body rest _ =>
    .bind (.of_quiet (cond.quiet_lowerHere env)) fun _ ↦ .bind (body.grows_lower env) fun _ ↦
      .bind (rest.grows_lower env _) fun _ ↦ Lowering.grows_emit _
  | .lone _ _ => .throw _

theorem grows_lowerStmts (env : Env) : ∀ ss : List Stmt, Grows env.layer.depth (lowerStmts env ss)
  | [] => .pure _
  | s :: rest => .bind (s.grows_lower env) fun _ ↦ grows_lowerStmts env rest

theorem Block.grows_lower (env : Env) : ∀ b : Block, Grows env.layer.depth (b.lower env)
  | .mk stmts _ => Block.grows_lower_of fun vars id ↦
    .bind (grows_lowerStmts (env.enter vars id) stmts) fun _ ↦
      .bind (.of_quiet (Lowering.quiet_pushNumber _ _)) fun _ ↦ Lowering.grows_emit _

theorem Branches.grows_lower (env : Env) (done : List Operand) : ∀ b : Branches,
    Grows env.layer.depth (b.lower env done)
  | .done => .pure _
  | .else_ body => .bind (body.grows_lower env) fun _ ↦ .pure _
  | .elif cond body rest =>
    .bind (.of_quiet (cond.quiet_lowerHere env)) fun _ ↦ .bind (body.grows_lower env) fun _ ↦
      rest.grows_lower env _

end

/-! ## Bodies -/

/-- The empty scope of a body. -/
def Scope.root (depth : Nat) (owner : Owner) : Scope :=
  { depth, level := 1, owner, parent := none }

/-- The place at the start of the body of a callable. -/
def Env.body (l : Layer) (owner : Owner) (p : Program) : Env :=
  ⟨l, owner, ((p.callable? owner).map (·.params)).getD [], [], p.scopes.size, 1⟩

/-- What the result of the statements of a body is as the result of lowering it. -/
def bodyResult (scopes : Nat) :
    EStateM.Result Problem Work Unit → EStateM.Result Problem Program ScopeId
  | .error e t => .error e t.program
  | .ok _ t => .ok scopes
      { t.program with
        scopes := t.program.scopes.setIfInBounds scopes
          { t.scope with instructions := t.scope.instructions.push .loopback } }

/-- Lowering a body: an empty scope is added, filled, and put into its place. -/
theorem lowerBody_apply (l : Layer) (owner : Owner) (body : Block) (p : Program) :
    lowerBody l owner body p = bodyResult p.scopes.size (lowerStmts (Env.body l owner p) body.stmts
      ⟨p.addRoot (.root l.depth owner), .root l.depth owner⟩) := by
  generalize hrun : lowerStmts (Env.body l owner p) body.stmts
    ⟨p.addRoot (.root l.depth owner), .root l.depth owner⟩ = r
  simp only [Env.body, Program.addRoot, Scope.root] at hrun
  simp only [lowerBody, bind, EStateM.bind, hrun]
  cases r <;> rfl

/-- Whether it succeeds or not, lowering a body adds the scope of the body and scopes nested in
others. -/
theorem after_lowerBody (l : Layer) (owner : Owner) (body : Block) (p : Program) :
    ∃ root new, after (lowerBody l owner body) p = (p.addRoot root).grow l.depth new ∧
      root.depth = l.depth ∧ root.parent = none ∧
      ∀ s ∈ new, s.depth = l.depth ∧ s.parent.isSome := by
  obtain ⟨⟨new, hnew, hall⟩, hhead⟩ := grows_lowerStmts (Env.body l owner p) body.stmts
    ⟨p.addRoot (.root l.depth owner), .root l.depth owner⟩
  rw [after, lowerBody_apply]
  cases h : lowerStmts (Env.body l owner p) body.stmts
      ⟨p.addRoot (.root l.depth owner), .root l.depth owner⟩ with
  | error e t =>
    rw [after_of_error h] at hnew
    exact ⟨_, new, hnew, rfl, rfl, hall⟩
  | ok _ t =>
    rw [after_of_ok h] at hnew
    have hscope := hhead h
    -- the root was added empty and is set to what it has become
    refine ⟨{ t.scope with instructions := t.scope.instructions.push .loopback }, new, ?_,
      hscope.depth, hscope.parent, hall⟩
    dsimp only [bodyResult]
    rw [hnew]
    exact Program.set_grow_addRoot _ _ _ _ _

theorem lowerBody_id {l : Layer} {owner : Owner} {body : Block} {p q : Program} {id : ScopeId}
    (h : lowerBody l owner body p = .ok id q) : id = p.scopes.size := by
  rw [lowerBody_apply] at h
  cases hrun : lowerStmts (Env.body l owner p) body.stmts
      ⟨p.addRoot (.root l.depth owner), .root l.depth owner⟩ with
  | error e t =>
    rw [hrun] at h
    contradiction
  | ok u t =>
    rw [hrun] at h
    exact (EStateM.Result.ok.inj h).1.symm

end CharacterScript
