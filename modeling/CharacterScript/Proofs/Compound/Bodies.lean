import CharacterScript.Proofs.Relocation.Lowering
import CharacterScript.Proofs.VisibleNames

/-!
# Spelling out compound assignments

`x op= e` assigns what `x = x op e` assigns. `Stmt.spelled` rewrites every such statement in a tree,
and this changes nothing about how the tree is lowered, whether that succeeds or not
(`lower_spelled`).

## The left operand

The two differ in how the left operand is found. The target of an assignment is looked up among the
variables only, but a name in an expression is first looked up among the definitions. They find the
same because no definition that is seen has the name of a variable in sight. This is so where a body
starts, and a new variable is compared with the definitions seen at its own place. So the invariant,
`Env.Clears`, also says that all places of a body see the same definitions.

## Step by step

Lowering goes through both trees in the same way and differs at an assignment alone, so the proof
follows the recursion of lowering. There the order of the two readings matters as well: the target
is looked up first, then the name, and only after that the right operand, and reading a variable
changes nothing.
-/

namespace CharacterScript

open Running

namespace Running

variable {ε σ α β : Type}

/-- Two sequences do the same if their first steps do and their second steps do from there. -/
theorem bind_congr_of_ok {x y : EStateM ε σ α} {f g : α → EStateM ε σ β} {s : σ} (hxy : x s = y s)
    (hfg : ∀ a t, y s = .ok a t → f a t = g a t) : (x >>= f) s = (y >>= g) s := by
  cases hy : y s with
  | ok a t => rw [bind_of_ok (hxy.trans hy), bind_of_ok hy, hfg a t hy]
  | error e t => rw [bind_of_error (hxy.trans hy), bind_of_error hy]

end Running

/-! ## Spelled-out trees -/

mutual

/-- The statement with every `x op= e` in it as `x = x op e`. -/
def Stmt.spelled : Stmt → Stmt
  | .assign name nameSpan (some op) value span =>
    .assign name nameSpan none (.binary op (.name name false nameSpan) value span) span
  | .loop body span => .loop body.spelled span
  | .if_ cond body rest span => .if_ cond body.spelled rest.spelled span
  | s => s

def Block.spelled : Block → Block
  | .mk stmts span => .mk (spelledStmts stmts) span

def Branches.spelled : Branches → Branches
  | .done => .done
  | .else_ body => .else_ body.spelled
  | .elif cond body rest => .elif cond body.spelled rest.spelled

def spelledStmts : List Stmt → List Stmt
  | [] => []
  | s :: rest => s.spelled :: spelledStmts rest

end

theorem Block.stmts_spelled (b : Block) : b.spelled.stmts = spelledStmts b.stmts := by
  cases b
  rfl

private theorem append_subset_append {α : Type} {as bs as' bs' : List α} (h : as ⊆ as')
    (h' : bs ⊆ bs') :
    as ++ bs ⊆ as' ++ bs' :=
  List.append_subset.2
    ⟨List.subset_append_of_subset_left _ h, List.subset_append_of_subset_right _ h'⟩

mutual

/-- Nothing is put at a new place. -/
theorem Stmt.spans_spelled : ∀ s : Stmt, s.spelled.spans ⊆ s.spans
  | .assign name nameSpan (some op) value span => by
    simp [Stmt.spelled, Stmt.spans, Expr.spans]
  | .loop body _ => by
    rw [Stmt.spelled, Stmt.spans, Stmt.spans]
    exact List.cons_subset_cons _ body.spans_spelled
  | .if_ cond body rest _ => by
    rw [Stmt.spelled, Stmt.spans, Stmt.spans]
    exact List.cons_subset_cons _ (append_subset_append
      (append_subset_append (List.Subset.refl _) body.spans_spelled) rest.spans_spelled)
  | .break_ _ => List.Subset.refl _
  | .call _ => List.Subset.refl _
  | .let_ _ _ _ _ => List.Subset.refl _
  | .assign _ _ none _ _ => List.Subset.refl _
  | .return_ _ _ => List.Subset.refl _
  | .lone _ _ => List.Subset.refl _

theorem Block.spans_spelled : ∀ b : Block, b.spelled.spans ⊆ b.spans
  | .mk stmts _ => by
    rw [Block.spelled, Block.spans, Block.spans]
    exact List.cons_subset_cons _ (spans_spelledStmts stmts)

theorem Branches.spans_spelled : ∀ b : Branches, b.spelled.spans ⊆ b.spans
  | .done => List.Subset.refl _
  | .else_ body => body.spans_spelled
  | .elif cond body rest => by
    rw [Branches.spelled, Branches.spans, Branches.spans]
    exact append_subset_append (append_subset_append (List.Subset.refl _) body.spans_spelled)
      rest.spans_spelled

theorem spans_spelledStmts : ∀ ss : List Stmt, stmtSpans (spelledStmts ss) ⊆ stmtSpans ss
  | [] => List.Subset.refl _
  | s :: rest => by
    rw [spelledStmts, stmtSpans, stmtSpans]
    exact append_subset_append s.spans_spelled (spans_spelledStmts rest)

end

/-! ## What is seen

The invariant is about the names in sight, and these change where a variable is declared and where
a block is entered. -/

/-- All places of a body see the same definitions, and none of them has the name of a variable in
sight. -/
structure Env.Clears (env : Env) (spans : List Span) (w : Work) : Prop where
  /-- The place is one of the work. -/
  fits : env.Fits w
  /-- A definition is seen from all of the body or from none of it. -/
  level : ∀ name, ∀ r ∈ spans, ∀ r' ∈ spans,
    env.define? name r.start w = env.define? name r'.start w
  /-- A variable in sight is hidden by no definition. -/
  free : ∀ name ∈ env.names w, ∀ r ∈ spans, env.define? name r.start w = none

namespace Env.Clears

variable {env : Env} {spans : List Span} {w w' : Work} {decls : List Identifier}
  {is : List Instruction} {n : Nat} {C : Program → Scope → Prop}

/-- It stays so when something was lowered, if no variable was declared that has the name of a
definition seen at some place. -/
theorem next (h : env.Clears spans w) (hran : Ran env w w' decls is n C)
    (hnew : ∀ i ∈ decls, ∃ r ∈ spans, env.define? i.name r.start w = none) :
      env.Clears spans w' := by
  have hdefine : ∀ name offset, env.define? name offset w' = env.define? name offset w := by
    obtain ⟨new, hgrow, -⟩ := hran.grown
    intro name offset
    rw [Env.define?, hgrow]
    rfl
  refine ⟨hran.fits h.fits, fun name r hr r' hr' ↦ ?_, fun name hname r hr ↦ ?_⟩
  · rw [hdefine, hdefine]
    exact h.level name r hr r' hr'
  · rw [hdefine]
    rw [hran.names, List.mem_append] at hname
    obtain hold | hmem := hname
    · exact h.free name hold r hr
    · obtain ⟨i, hi, rfl⟩ := List.mem_map.1 hmem
      obtain ⟨r', hr', hnone⟩ := hnew i hi
      exact (h.level _ r hr r' hr').trans hnone

theorem next_nil (h : env.Clears spans w) (hran : Ran env w w' [] is n C) : env.Clears spans w' :=
  h.next hran (List.forall_mem_nil _)

/-- A block starts with what is in sight around it. -/
theorem enter (h : env.Clears spans w) :
    (env.enter w.scope.vars.toList w.program.scopes.size).Clears spans
      ⟨w.program.grow env.layer.depth [env.nested], env.nested⟩ := by
  refine ⟨Env.enter_fits h.fits, h.level, fun name hname ↦ ?_⟩
  rw [Env.names, Env.enter_vars] at hname
  exact h.free name hname

/-- A statement declares no variable with the name of a definition that it sees. -/
theorem stmt (h : env.Clears spans w) {s : Stmt} (hspans : s.spans ⊆ spans)
    (hs : s.lower env w = .ok () w') : env.Clears spans w' := by
  obtain ⟨is, hran⟩ := s.ran_lower h.fits hs
  refine h.next hran fun i hi ↦ ?_
  cases s with
  | let_ name nameSpan value span =>
    obtain rfl := List.mem_singleton.1 hi
    obtain ⟨o, t, hvalue, hlet⟩ := bind_eq_ok.1 hs
    obtain ⟨new, hgrow, -⟩ := (Ran.expr hvalue).grown
    have hnone := (Env.taken?_eq_none (lowerLet_taken? hlet)).2
    rw [Env.define?, hgrow] at hnone
    exact ⟨nameSpan, hspans (by simp [Stmt.spans]), hnone⟩
  | break_ | call | assign | return_ | loop | if_ | lone => cases hi

end Env.Clears

/-! ## What a name is read as

A name that is a variable in sight and no definition is read as its slot, which is what the
assignment has already found. -/

/-- A variable in sight is read as its slot, and this is how an assignment finds it. -/
theorem Expr.lowerHere_name {env : Env} {name : String} {span : Span} {w : Work} {slot : UInt16}
    (hdefine : env.define? name span.start w = none)
    (hslot : assignedSlot env name span w = .ok slot w) :
    (Expr.name name false span).lowerHere env w = .ok (.var slot) w := by
  show (Site.written env).name name false span w = _
  rw [Site.name_written_of_none hdefine]
  obtain ⟨hfind, -⟩ := assignedSlot_eq_ok hslot
  have hfit : Lowering.fit slot.toNat .vars (fun _ ↦ env.layer.pos span) w = .ok slot w := by
    rw [assignedSlot, get_bind, Env.slot?, hfind] at hslot
    exact hslot
  rw [Env.plainName, get_bind, Env.slot?, hfind]
  exact bind_of_ok hfit

/-! ## Lowering -/

section

variable {spans : List Span}

/-- Filling the scope of a block, once its statements are known to be lowered alike. -/
private theorem Block.lower_spelled_of {stmts : List Stmt} {span : Span} {env : Env} {w : Work}
    (hstmts : lowerStmts (env.enter w.scope.vars.toList w.program.scopes.size) (spelledStmts stmts)
        ⟨w.program.grow env.layer.depth [env.nested], env.nested⟩
      = lowerStmts (env.enter w.scope.vars.toList w.program.scopes.size) stmts
        ⟨w.program.grow env.layer.depth [env.nested], env.nested⟩) :
    (Block.mk stmts span).spelled.lower env w = (Block.mk stmts span).lower env w := by
  have hfill : Block.fill env (spelledStmts stmts) span w.scope.vars.toList w.program.scopes.size
        ⟨w.program.grow env.layer.depth [env.nested], env.nested⟩
      = Block.fill env stmts span w.scope.vars.toList w.program.scopes.size
        ⟨w.program.grow env.layer.depth [env.nested], env.nested⟩ := by
    rw [Block.fill, Block.fill]
    exact bind_congr_of_ok hstmts fun _ _ _ ↦ rfl
  rw [Block.spelled, Block.lower_apply, Block.lower_apply, hfill]

mutual

theorem Stmt.lower_spelled : ∀ (s : Stmt) {env : Env} {w : Work}, env.Clears spans w →
    s.spans ⊆ spans → s.spelled.lower env w = s.lower env w
  | .assign name nameSpan (some op) value span, env, w, h, hspans => by
    rw [Stmt.spelled, Stmt.lower, Stmt.lower]
    refine bind_congr_of_ok rfl fun slot t hslot ↦ ?_
    obtain ⟨hfind, rfl⟩ := assignedSlot_eq_ok hslot
    -- the target is a variable in sight, so its name is read as that variable
    have hname : name ∈ env.names t := by
      obtain ⟨hlt, hbeq, -⟩ := List.findIdx?_eq_some_iff_getElem.1 hfind
      exact List.mem_map.2 ⟨_, List.getElem_mem hlt, beq_iff_eq.1 hbeq⟩
    have hdefine := h.free name hname nameSpan (hspans (by simp [Stmt.spans]))
    have hread := Expr.lowerHere_name hdefine hslot
    have hbinary : (Expr.binary op (.name name false nameSpan) value span).lowerHere env t
        = (value.lowerHere env >>= fun o ↦ pure (.binary op (.var slot) o)) t := by
      show ((Expr.name name false nameSpan).lowerHere env >>= _) t = _
      rw [bind_of_ok hread]
      rfl
    rw [bind_congr_of_ok hbinary fun _ _ _ ↦ rfl, bind_assoc]
    exact bind_congr_of_ok rfl fun _ _ _ ↦ rfl
  | .loop body span, env, w, h, hspans => by
    rw [Stmt.spelled, Stmt.lower, Stmt.lower]
    exact bind_congr_of_ok (body.lower_spelled h fun r hr ↦ hspans (List.mem_cons_of_mem _ hr))
      fun _ _ _ ↦ rfl
  | .if_ cond body rest span, env, w, h, hspans => by
    rw [Stmt.spans, List.cons_subset, List.append_subset, List.append_subset] at hspans
    obtain ⟨-, ⟨-, hbody⟩, hrest⟩ := hspans
    rw [Stmt.spelled, Stmt.lower, Stmt.lower]
    refine bind_congr_of_ok rfl fun o t hcond ↦ ?_
    have ht := h.next_nil (Ran.expr hcond)
    refine bind_congr_of_ok (body.lower_spelled ht hbody) fun word t₁ hword ↦ ?_
    exact bind_congr_of_ok (rest.lower_spelled (ht.next_nil (body.ran_lower ht.fits hword)) hrest)
      fun _ _ _ ↦ rfl
  | .break_ _, _, _, _, _ => rfl
  | .call _, _, _, _, _ => rfl
  | .let_ _ _ _ _, _, _, _, _ => rfl
  | .assign _ _ none _ _, _, _, _, _ => rfl
  | .return_ _ _, _, _, _, _ => rfl
  | .lone _ _, _, _, _, _ => rfl

/-- Statements are lowered the same with all compound assignments spelled out. -/
theorem lower_spelled : ∀ (ss : List Stmt) {env : Env} {w : Work}, env.Clears spans w →
    stmtSpans ss ⊆ spans → lowerStmts env (spelledStmts ss) w = lowerStmts env ss w
  | [], _, _, _, _ => rfl
  | s :: rest, env, w, h, hspans => by
    rw [stmtSpans, List.append_subset] at hspans
    rw [spelledStmts, lowerStmts, lowerStmts]
    exact bind_congr_of_ok (s.lower_spelled h hspans.1) fun _ t ht ↦
      lower_spelled rest (h.stmt hspans.1 ht) hspans.2

theorem Block.lower_spelled : ∀ (b : Block) {env : Env} {w : Work}, env.Clears spans w →
    b.spans ⊆ spans → b.spelled.lower env w = b.lower env w
  | .mk stmts _, _, _, h, hspans =>
    Block.lower_spelled_of (CharacterScript.lower_spelled stmts h.enter fun _ hr ↦
      hspans (List.mem_cons_of_mem _ hr))

theorem Branches.lower_spelled : ∀ (b : Branches) {env : Env} {done : List Operand} {w : Work},
    env.Clears spans w → b.spans ⊆ spans → b.spelled.lower env done w = b.lower env done w
  | .done, _, _, _, _, _ => rfl
  | .else_ body, env, done, w, h, hspans => by
    rw [Branches.spelled, Branches.lower, Branches.lower]
    exact bind_congr_of_ok (body.lower_spelled h hspans) fun _ _ _ ↦ rfl
  | .elif cond body rest, env, done, w, h, hspans => by
    rw [Branches.spans, List.append_subset, List.append_subset] at hspans
    obtain ⟨⟨-, hbody⟩, hrest⟩ := hspans
    rw [Branches.spelled, Branches.lower, Branches.lower]
    refine bind_congr_of_ok rfl fun o t hcond ↦ ?_
    have ht := h.next_nil (Ran.expr hcond)
    exact bind_congr_of_ok (body.lower_spelled ht hbody) fun word t₁ hword ↦
      rest.lower_spelled (ht.next_nil (body.ran_lower ht.fits hword)) hrest

end

end

end CharacterScript
