import CharacterScript.Proofs.Lowering.Bodies

/-!
# The scopes of a layer

`bodiesCompiled` starts from the bodies and follows blocks into their scopes. Statements about all
scopes of a layer go the other way: given a scope, what was it made from? A scope without a parent
is the body of a callable, and one with a parent has a place in the pool. The places are used up by
the blocks of the bodies without a gap, so the block with that place is found by counting.

## What is found

What is found is `Scope.Filled`: statements that became the instructions of the scope, its last
instruction, the scope around it, and that the slots in it fit the chain of visible variables.

## Counting blocks

The blocks of a body come in the order in which they begin, and each has as many places behind it
as it has blocks inside. So a place is either that of a block, or inside of it, or behind it, and
the numbers say which. The pool lists the scopes of a layer in order; a scope with a parent is at
the place that its number among them says.
-/

namespace CharacterScript

/-! ## Visible variables

What is visible in a scope is found by going up its parents. Parents come first in the arena, so
the walk ends, and the variables of a block are those of its parent with its own behind. -/

namespace Program

/-- The variables of the scopes around a scope, as far as `fuel` goes. With as much fuel as there
are scopes this is `allVars`. -/
def varsWithin (p : Program) (fuel : Nat) (id : ScopeId) : List Identifier :=
  let chain := (p.enclosing fuel id).reverse
  let params := ((chain.head?.map (·.owner)).bind p.callable?).map (·.params)
  p.globalIdents ++ params.getD [] ++ chain.flatMap (·.vars.toList)

variable {p : Program} {fuel : Nat} {id inner : ScopeId} {s t : Scope}

theorem varsWithin_root (hs : p.scope? id = some s) (hparent : s.parent = none) :
    p.varsWithin (fuel + 1) id
      = p.globalIdents ++ ((p.callable? s.owner).map (·.params)).getD [] ++ s.vars.toList := by
  have hchain : p.enclosing (fuel + 1) id = [s] := by
    rw [enclosing]
    simp only [hs, hparent]
  rw [varsWithin, hchain]
  simp

/-- An inner scope sees what the scope around it sees, and then its own variables. -/
theorem varsWithin_inner (hs : p.scope? id = some s) (ht : p.scope? inner = some t)
    (hparent : t.parent = some id) (hfuel : 0 < fuel) :
    p.varsWithin (fuel + 1) inner = p.varsWithin fuel id ++ t.vars.toList := by
  have hchain : p.enclosing (fuel + 1) inner = t :: p.enclosing fuel id := by
    rw [enclosing]
    simp only [ht, hparent]
  have houter : ∃ rest, p.enclosing fuel id = s :: rest := by
    obtain ⟨fuel, rfl⟩ := Nat.exists_eq_succ_of_ne_zero hfuel.ne'
    rw [enclosing]
    simp only [hs]
    cases s.parent with
    | none => exact ⟨_, rfl⟩
    | some parent => exact ⟨_, rfl⟩
  obtain ⟨rest, hrest⟩ := houter
  rw [varsWithin, varsWithin, hchain, hrest]
  simp

/-- At least so many variables are visible in a scope. -/
def Shows (p : Program) (id : ScopeId) (n : Nat) : Prop :=
  ∀ fuel, id < fuel → n ≤ (p.varsWithin fuel id).length

theorem Shows.le_allVars {n : Nat} (h : p.Shows id n) (hs : p.scope? id = some s) :
    n ≤ (p.allVars id).length :=
  h _ (Array.getElem?_eq_some_iff.1 hs).1

theorem Shows.mono {m n : Nat} (h : p.Shows id n) (hle : m ≤ n) : p.Shows id m :=
  fun fuel hfuel ↦ hle.trans (h fuel hfuel)

theorem shows_root (hs : p.scope? id = some s) (hparent : s.parent = none) {c : Callable}
    (hc : p.callable? s.owner = some c) :
    p.Shows id ((p.globalIdents ++ c.params).length + s.vars.toList.length) := by
  intro fuel hfuel
  obtain ⟨fuel, rfl⟩ := Nat.exists_eq_succ_of_ne_zero (Nat.ne_zero_of_lt hfuel)
  rw [varsWithin_root hs hparent, hc]
  exact Nat.le_of_eq List.length_append.symm

theorem Shows.nested {n : Nat} (h : p.Shows id n) (hs : p.scope? id = some s)
    (ht : p.scope? inner = some t) (hparent : t.parent = some id) (hlt : id < inner) :
    p.Shows inner (n + t.vars.toList.length) := by
  intro fuel hfuel
  obtain ⟨fuel, rfl⟩ := Nat.exists_eq_succ_of_ne_zero (Nat.ne_zero_of_lt hfuel)
  have hid : id < fuel := Nat.lt_of_lt_of_le hlt (Nat.le_of_lt_succ hfuel)
  rw [varsWithin_inner hs ht hparent (Nat.zero_lt_of_lt hid), List.length_append]
  exact Nat.add_le_add_right (h fuel hid) _

end Program

/-! ## Scopes and blocks -/

/-- The instruction a scope ends with: a body starts again, and an inner scope is left with the
value zero. -/
def Scope.EndsWith (s : Scope) (last : Instruction) : Prop :=
  match s.parent with
  | none => last = .loopback
  | some _ => ∃ i : UInt16, s.numbers[i.toNat]? = some (narrow 0) ∧ last = .leave (.number i) .scope

/-- The scope has what the statements of a block became. -/
structure Scope.Filled (p : Program) (l : Layer) (R : Rule) (id : ScopeId) (s : Scope) : Prop where
  /-- If it is inside another scope, that one was allocated before it. -/
  outer : ∀ {parent}, s.parent = some parent →
    parent < id ∧ ∃ t, p.scope? parent = some t ∧ s.Inside parent t
  /-- Its code is that of some statements and ends as such a scope does, and the variables they
  declare are those in sight. -/
  code : ∃ vars place stmts is last, s.instructions.toList = is ++ [last] ∧ s.EndsWith last ∧
    stmtsCompiled p l R id s vars place stmts is ∧
    p.Shows id (vars.length + (declaredVars l stmts).length)

/-- The place of the pool has a scope that was filled. -/
def Found (p : Program) (l : Layer) (R : Rule) (j : Nat) : Prop :=
  ∃ inner t, (p.anonymous l.depth)[j]? = some inner ∧ p.scope? inner = some t ∧
    t.Filled p l R inner

section

variable {p : Program} {l : Layer} {R : Rule}

mutual

private theorem Stmt.Compiled.found {id : ScopeId} {s : Scope} (hs : p.scope? id = some s)
    {vars : List Identifier} (hvars : p.Shows id vars.length) {j : Nat} :
    ∀ {stmt : Stmt} {place : Nat} {is : List Instruction}, stmt.Compiled p l R id s vars place is →
      place ≤ j → j < place + stmt.blocks → Found p l R j
  | .loop _ _, _, _, ⟨_, hbody, _⟩, hle, hlt => Block.Compiled.found hs hvars hbody hle hlt
  | .if_ _ body _ _, place, _, ⟨_, _, _, _, hbody, hrest, _⟩, hle, hlt => by
    rw [Stmt.blocks, ← Nat.add_assoc] at hlt
    rcases Nat.lt_or_ge j (place + body.blocks) with hj | hj
    · exact Block.Compiled.found hs hvars hbody hle hj
    · exact Branches.Compiled.found hs hvars hrest hj hlt
  | .break_ _, _, _, _, hle, hlt | .call _, _, _, _, hle, hlt | .let_ _ _ _ _, _, _, _, hle, hlt
  | .assign _ _ _ _ _, _, _, _, hle, hlt | .return_ _ _, _, _, _, hle, hlt
  | .lone _ _, _, _, _, hle, hlt => absurd hlt (Nat.not_lt.2 hle)

private theorem stmtsCompiled.found {id : ScopeId} {s : Scope} (hs : p.scope? id = some s)
    {j : Nat} : ∀ {stmts : List Stmt} {vars : List Identifier} {place : Nat}
      {is : List Instruction}, p.Shows id (vars.length + (declaredVars l stmts).length) →
      stmtsCompiled p l R id s vars place stmts is → place ≤ j → j < place + stmtBlocks stmts →
      Found p l R j
  | [], _, _, _, _, _, hle, hlt => absurd hlt (Nat.not_lt.2 hle)
  | stmt :: rest, vars, place, _, hvars, ⟨_, _, _, hstmt, _, hrest⟩, hle, hlt => by
    rw [stmtBlocks, ← Nat.add_assoc] at hlt
    rw [declaredVars, List.flatMap_cons, List.length_append] at hvars
    rcases Nat.lt_or_ge j (place + stmt.blocks) with hj | hj
    · exact Stmt.Compiled.found hs (hvars.mono (Nat.le_add_right _ _)) hstmt hle hj
    · rw [← Nat.add_assoc, ← List.length_append] at hvars
      exact stmtsCompiled.found hs hvars hrest hj hlt

private theorem Block.Compiled.found {id : ScopeId} {s : Scope} (hs : p.scope? id = some s)
    {vars : List Identifier} (hvars : p.Shows id vars.length) {j : Nat} :
    ∀ {b : Block} {place : Nat} {w : UInt16}, b.Compiled p l R id s vars place w → place ≤ j →
      j < place + b.blocks → Found p l R j
  | .mk stmts _, place, _, ⟨_, inner, t, hpool, ht, hinner, hinside, hdecl, i, is, hzero, hcode,
      hstmts⟩, hle, hlt => by
    have hshows : p.Shows inner (vars.length + (declaredVars l stmts).length) :=
      hdecl ▸ hvars.nested hs ht hinside.parent hinner
    rcases Nat.eq_or_lt_of_le hle with rfl | hj
    · -- the block itself has the first place
      refine ⟨inner, t, hpool, ht, fun {parent} hparent ↦ ?_, vars, _, stmts, is, _, hcode, ?_,
        hstmts, hshows⟩
      · cases hinside.parent.symm.trans hparent
        exact ⟨hinner, s, hs, hinside⟩
      · rw [Scope.EndsWith, hinside.parent]
        exact ⟨i, hzero, rfl⟩
    · rw [Block.blocks, ← Nat.add_assoc] at hlt
      exact stmtsCompiled.found ht hshows hstmts hj hlt

private theorem Branches.Compiled.found {id : ScopeId} {s : Scope} (hs : p.scope? id = some s)
    {vars : List Identifier} (hvars : p.Shows id vars.length) {j : Nat} :
    ∀ {b : Branches} {place : Nat} {os : List Operand}, b.Compiled p l R id s vars place os →
      place ≤ j → j < place + b.blocks → Found p l R j
  | .done, _, _, _, hle, hlt => absurd hlt (Nat.not_lt.2 hle)
  | .else_ _, _, _, ⟨_, hbody, _⟩, hle, hlt => Block.Compiled.found hs hvars hbody hle hlt
  | .elif _ body _, place, _, ⟨_, _, _, _, hbody, hrest, _⟩, hle, hlt => by
    rw [Branches.blocks, ← Nat.add_assoc] at hlt
    rcases Nat.lt_or_ge j (place + body.blocks) with hj | hj
    · exact Block.Compiled.found hs hvars hbody hle hj
    · exact Branches.Compiled.found hs hvars hrest hj hlt

end

/-! ## Bodies -/

/-- The scope of a body was filled. -/
theorem BodyCompiled.filled {place : Nat} {owner : Owner} {body : Block}
    (h : BodyCompiled p l R place owner body) :
    ∃ c id s, p.callable? owner = some c ∧ c.body = some id ∧ p.scope? id = some s ∧
      s.IsRoot l.depth owner ∧ s.Filled p l R id := by
  obtain ⟨c, id, s, is, hc, -, hbody, hs, hroot, hdecl, hcode, hstmts⟩ := h
  refine ⟨c, id, s, hc, hbody, hs, hroot, fun hparent ↦ ?_, _, place, body.stmts, is, _, hcode, ?_,
    hstmts, ?_⟩
  · rw [hroot.parent] at hparent
    contradiction
  · rw [Scope.EndsWith, hroot.parent]
  · rw [← hdecl]
    exact Program.shows_root hs hroot.parent (hroot.owner ▸ hc)

private theorem BodyCompiled.found {place j : Nat} {owner : Owner} {body : Block}
    (h : BodyCompiled p l R place owner body) (hle : place ≤ j)
    (hlt : j < place + stmtBlocks body.stmts) : Found p l R j := by
  obtain ⟨c, id, s, is, hc, -, -, hs, hroot, hdecl, -, hstmts⟩ := h
  refine stmtsCompiled.found hs ?_ hstmts hle hlt
  rw [← hdecl]
  exact Program.shows_root hs hroot.parent (hroot.owner ▸ hc)

theorem bodiesCompiled.body_of_mem {owner : Owner} {body : Block} {bodies : List (Owner × Block)}
    {place : Nat} (h : bodiesCompiled p l R place bodies) (hmem : (owner, body) ∈ bodies) :
    ∃ place', BodyCompiled p l R place' owner body := by
  induction bodies generalizing place with
  | nil => contradiction
  | cons entry rest ih =>
    obtain ⟨hbody, hrest⟩ := h
    rcases List.mem_cons.1 hmem with rfl | hmem
    · exact ⟨place, hbody⟩
    · exact ih hrest hmem

private theorem bodiesCompiled.found {j place : Nat} {bodies : List (Owner × Block)}
    (h : bodiesCompiled p l R place bodies) (hle : place ≤ j)
    (hlt : j < (p.anonymous l.depth).size) : Found p l R j := by
  induction bodies generalizing place with
  | nil =>
    -- no body is left, so all places of the pool have been given out
    rw [bodiesCompiled] at h
    omega
  | cons entry rest ih =>
    obtain ⟨owner, body⟩ := entry
    obtain ⟨hbody, hrest⟩ := h
    rcases Nat.lt_or_ge j (place + stmtBlocks body.stmts) with hj | hj
    · exact hbody.found hle hj
    · exact ih hrest hj

end

/-- Every scope of an accepted layer was filled from a block of the layer. -/
theorem Layer.Compiled.filled {l : Layer} {items : List Item} {p : Program}
    (h : l.Compiled items p) {id : ScopeId} {s : Scope} (hs : p.scope? id = some s)
    (hdepth : s.depth = l.depth) : s.Filled p l (.sound p l) id := by
  obtain ⟨order, hperm, hbodies⟩ := h.bodies
  cases hparent : s.parent with
  | none =>
    obtain ⟨c, hc, hcdepth, hbody⟩ := h.roots hs hdepth hparent
    obtain ⟨body, hmem⟩ := (h.callables s.owner).1 ⟨c, hc, hcdepth⟩
    obtain ⟨place, hcompiled⟩ := hbodies.body_of_mem (hperm.mem_iff.2 hmem)
    obtain ⟨c', id', s', hc', hbody', hs', -, hfilled⟩ := hcompiled.filled
    cases hc.symm.trans hc'
    cases hbody.symm.trans hbody'
    cases hs.symm.trans hs'
    exact hfilled
  | some parent =>
    -- the scope has a place in the pool, and at that place a block was found
    have hmem : id ∈ (p.anonymous l.depth).toList :=
      h.sound.mem_anonymous.2 ⟨s, hs, hdepth, by rw [hparent]; rfl⟩
    obtain ⟨j, hj⟩ := List.mem_iff_getElem?.1 hmem
    rw [Array.getElem?_toList] at hj
    obtain ⟨inner, t, hinner, ht, hfilled⟩ :=
      hbodies.found (Nat.zero_le j) (Array.getElem?_eq_some_iff.1 hj).1
    cases hj.symm.trans hinner
    cases hs.symm.trans ht
    exact hfilled

end CharacterScript
