import CharacterScript.Proofs.Lowering.Scopes

/-!
# The scopes of a layer are trees

Each callable of an accepted layer has one scope without a parent, its body; all other scopes of the
layer are the blocks inside the bodies, and the pool of the layer lists them. `Program.ScopeTree`
says this of a program and a depth. Which block has which place of the pool is what `bodiesCompiled`
says: the blocks are counted through all bodies, a block before those inside it and the bodies one
after the other, and the instruction that a statement with blocks became has the numbers of its
blocks.

## Why a tree

A parent comes before its children in the arena, so going up ends, and it ends at a scope without
a parent. That is the body of exactly one callable, the owner of all the scopes on the way. So the
scopes of a depth fall into as many trees as there are callables of that depth.

How a scope ends is part of it: a body starts over, and every other block is left.
-/

namespace CharacterScript

/-- The scopes of a depth form one tree for each callable of that depth. -/
structure Program.ScopeTree (p : Program) (depth : Nat) : Prop where
  /-- The scopes without a parent are the bodies of the callables. -/
  root_iff : ∀ id, (∃ t, p.scope? id = some t ∧ t.depth = depth ∧ t.parent = none) ↔
    ∃ owner c, p.callable? owner = some c ∧ c.depth = depth ∧ c.body = some id
  /-- Every callable has a body, which belongs to no other callable. -/
  root : ∀ {owner c}, p.callable? owner = some c → c.depth = depth →
    ∃ id t, c.body = some id ∧ p.scope? id = some t ∧ t.IsRoot depth owner
  /-- The pool lists its scopes in the order they were allocated. -/
  pool_increasing : (p.anonymous depth).toList.Pairwise (· < ·)
  /-- The pool has the scopes with a parent, and no other. -/
  mem_pool_iff : ∀ id, id ∈ (p.anonymous depth).toList ↔
    ∃ t, p.scope? id = some t ∧ t.depth = depth ∧ t.parent.isSome
  /-- A scope with a parent was allocated after it, is one level deeper, and belongs to the same
  callable. -/
  inner : ∀ {id t parent}, p.scope? id = some t → t.depth = depth → t.parent = some parent →
    parent < id ∧ ∃ outer, p.scope? parent = some outer ∧ t.Inside parent outer
  /-- The code of a body ends by starting over. -/
  root_last : ∀ {id t}, p.scope? id = some t → t.depth = depth → t.parent = none →
    t.instructions.toList.getLast? = some .loopback
  /-- The code of any other block ends by leaving the block. -/
  inner_last : ∀ {id t}, p.scope? id = some t → t.depth = depth → t.parent.isSome →
    ∃ i : UInt16, t.numbers[i.toNat]? = some 0 ∧
      t.instructions.toList.getLast? = some (.leave (.number i) .scope)

theorem narrow_zero : narrow 0 = 0 := by
  decide +kernel

theorem Scope.Filled.getLast? {p : Program} {l : Layer} {R : Rule} {id : ScopeId} {s : Scope}
    (h : s.Filled p l R id) :
    ∃ last, s.instructions.toList.getLast? = some last ∧ s.EndsWith last := by
  obtain ⟨vars, place, stmts, is, last, hcode, hlast, -⟩ := h.code
  rw [hcode, List.getLast?_concat]
  exact ⟨last, rfl, hlast⟩

theorem Layer.Compiled.scopeTree {l : Layer} {items : List Item} {p : Program}
    (h : l.Compiled items p) : p.ScopeTree l.depth := by
  have hroot : ∀ {owner c}, p.callable? owner = some c → c.depth = l.depth →
      ∃ id t, c.body = some id ∧ p.scope? id = some t ∧ t.IsRoot l.depth owner := by
    intro owner c hc hdepth
    obtain ⟨order, hperm, hbodies⟩ := h.bodies
    -- a callable of this depth was declared by an item, whose body was compiled
    obtain ⟨body, hmem⟩ := (h.callables owner).1 ⟨c, hc, hdepth⟩
    obtain ⟨place, hcompiled⟩ := hbodies.body_of_mem (hperm.mem_iff.2 hmem)
    obtain ⟨c', id, t, hc', hbody, ht, hroot, -⟩ := hcompiled.filled
    cases hc.symm.trans hc'
    exact ⟨id, t, hbody, ht, hroot⟩
  refine ⟨fun id ↦ ⟨?_, ?_⟩, hroot, h.sound.pairwise_anonymous _, fun id ↦ h.sound.mem_anonymous,
    fun ht hdepth hparent ↦ (h.filled ht hdepth).outer hparent, fun {id t} ht hdepth hparent ↦ ?_,
    fun {id t} ht hdepth hparent ↦ ?_⟩
  · rintro ⟨t, ht, hdepth, hparent⟩
    exact ⟨t.owner, h.roots ht hdepth hparent⟩
  · rintro ⟨owner, c, hc, hdepth, hbody⟩
    obtain ⟨id', t, hbody', ht, hroot⟩ := hroot hc hdepth
    cases hbody.symm.trans hbody'
    exact ⟨t, ht, hroot.depth, hroot.parent⟩
  · obtain ⟨last, hlast, hends⟩ := (h.filled ht hdepth).getLast?
    rw [Scope.EndsWith, hparent] at hends
    rw [hlast, hends]
  · obtain ⟨last, hlast, hends⟩ := (h.filled ht hdepth).getLast?
    obtain ⟨parent, hparent⟩ := Option.isSome_iff_exists.1 hparent
    rw [Scope.EndsWith, hparent] at hends
    obtain ⟨i, hi, rfl⟩ := hends
    exact ⟨i, narrow_zero ▸ hi, hlast⟩

/-- The scopes of a layer that a session accepts are trees, and each block of the layer has a place
of its own in the pool, which the instruction it belongs to carries. -/
theorem accepted_scopeTree {s s' : Session} {source : String} {depth : Nat} (hs : s.Reachable)
    (h : s.compileLayer source = (.ok depth, s')) :
    s'.program.ScopeTree depth ∧ depth = (s.nextLayer source).depth ∧
      ∃ items order, ReadsAs source items ∧ order.Perm (bodiesOf items) ∧
        bodiesCompiled s'.program (s.nextLayer source) (.sound s'.program (s.nextLayer source)) 0
          order := by
  obtain ⟨hd, -, -⟩ := Session.compileLayer_ok h
  obtain ⟨items, hitems, hcompiled⟩ := hs.compiled h
  obtain ⟨order, hperm, hbodies⟩ := hcompiled.bodies
  exact ⟨hd ▸ hcompiled.scopeTree, hd, items, order, hitems, hperm, hbodies⟩

/-- In the sample there are two bodies, and the pool has the blocks inside `main`. -/
theorem accepted_scopeTree_sample :
    ∃ s, Sample.start.compileLayer Sample.source = (.ok 1, s) ∧
      s.program.anonymous 1 = #[2, 3, 4] ∧ s.program.ScopeTree 1 := by
  obtain ⟨s, hs⟩ := Sample.accepted
  obtain ⟨-, -, hpool, -⟩ := Sample.compiles
  rw [hs] at hpool
  exact ⟨s, hs, hpool, (accepted_scopeTree Sample.reachable_start hs).1⟩

end CharacterScript
