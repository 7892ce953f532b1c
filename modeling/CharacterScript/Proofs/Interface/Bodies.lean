import CharacterScript.Proofs.Interface.Lowering
import CharacterScript.Proofs.Lowering.Bodies

/-!
# Lowering the bodies of a layer in two programs

A layer lowers its bodies one after the other, and each gets a scope of its own, with an id that
depends on how many scopes there were. What is compared is therefore what the ids lead to: the scope
of each callable of the layer and the anonymous scopes in order. That the pool of a layer holds
these in the order of the arena is known of sound programs.

## The order of bodies

Functions come first, then scripts, then `main`, each in the order of the tables. Both programs
have the same order of names, so the bodies are lowered in the same order, although the tables
themselves may differ in everything else.
-/

namespace CharacterScript

open Running

/-! ## What a body adds

A body adds one scope without a parent and the scopes of its blocks, at the end of the arena and
of the pool. -/

namespace Program

/-- The pool of a layer holds its anonymous scopes in the order of the arena. -/
theorem Sound.map_anonymous {p : Program} (h : p.Sound) (depth : Nat) :
    (p.anonymous depth).toList.map (fun id ↦ (p.scope? id).map Scope.unlinked)
      = (p.blocks depth).map some := by
  have hscopes : (List.range p.scopes.size).map p.scope? = p.scopes.toList.map some := by
    apply List.ext_getElem
    · simp
    · intro i hi hi'
      have hlt : i < p.scopes.size := by simpa using hi
      simp [scope?, hlt]
  have hpool : (p.anonymous depth).toList.map p.scope?
      = (p.scopes.toList.filter fun s ↦ s.depth == depth && s.parent.isSome).map some := by
    calc (p.anonymous depth).toList.map p.scope?
        = ((List.range p.scopes.size).map p.scope?).filter
            (·.any fun s ↦ s.depth == depth && s.parent.isSome) := by
          rw [h.anonymous, List.filter_map]
          rfl
      _ = _ := by
          rw [hscopes, List.filter_map]
          rfl
  have hmap := congrArg (List.map (Option.map Scope.unlinked)) hpool
  simpa [blocks, Function.comp_def] using hmap

theorem Sound.size_anonymous {p : Program} (h : p.Sound) (depth : Nat) :
    (p.anonymous depth).size = (p.blocks depth).length := by
  simpa using congrArg List.length (h.map_anonymous depth)

/-- The blocks of a layer after a body of it was lowered. -/
theorem blocks_lowered (p : Program) {root : Scope} (depth : Nat) (new : List Scope)
    (hroot : root.parent = none) :
    ((p.addRoot root).grow depth new).blocks depth = p.blocks depth
      ++ (new.map Scope.unlinked).filter fun s ↦ s.depth == depth && s.parent.isSome := by
  have hfilter : (new.map Scope.unlinked).filter (fun s ↦ s.depth == depth && s.parent.isSome)
      = (new.filter fun s ↦ s.depth == depth && s.parent.isSome).map Scope.unlinked := by
    rw [List.filter_map]
    simp [Function.comp_def, Scope.unlinked]
  rw [hfilter]
  simp [blocks, addRoot, hroot]

/-- The bodies of a layer after one of them was lowered. -/
theorem bodySeen_lowered {p : Program} (hp : p.Sound) (root : Scope) (depth : Nat)
    (new : List Scope) (owner other : Owner) :
    (((p.addRoot root).grow depth new).setBody owner p.scopes.size).bodySeen depth other
      = if other = owner then
          (p.callable? other).bind fun c ↦ if c.depth = depth then some root else none
        else p.bodySeen depth other := by
  have hscope : ∀ id, (((p.addRoot root).grow depth new).setBody owner p.scopes.size).scope? id
      = (p.scopes.push root ++ new.toArray)[id]? := by
    intro id
    cases owner <;> rfl
  rw [bodySeen, callable?_setBody]
  have hsame : ((p.addRoot root).grow depth new).callable? other = p.callable? other := by
    cases other <;> rfl
  rw [hsame]
  split
  · rw [Option.bind_map]
    congr 1
    funext c
    simp [Image.bodyAt?, hscope]
  · rw [bodySeen]
    cases hc : p.callable? other with
    | none => rfl
    | some c =>
      simp only [Option.bind_some, Image.bodyAt?]
      split
      -- an old body is a scope in front of the new ones
      · cases hbody : c.body with
        | none => rfl
        | some id =>
          have hlt := (hp.callable hc).body_lt hbody
          rw [Option.bind_some, Option.bind_some, hscope,
            Array.getElem?_append_left (by simpa using Nat.lt_succ_of_lt hlt), Array.getElem?_push,
            if_neg (Nat.ne_of_lt hlt)]
          rfl
      · rfl

end Program

namespace Layer

variable {l : Layer} {p q : Program}

/-! ## Bodies are set -/

theorem view_setBody {t u : Table Callable} (h : t.view l.viewCallable = u.view l.viewCallable)
    (name : String) (id id' : ScopeId) :
    (setBody t name id).view l.viewCallable = (setBody u name id').view l.viewCallable := by
  rw [setBody, setBody, Table.indexOf?_of_view h]
  split
  · exact Table.view_modifyAt h _ fun _ _ hview ↦ hview
  · exact h

theorem SameTables.setBody (h : l.SameTables p q) (owner : Owner) (id id' : ScopeId) :
    l.SameTables (p.setBody owner id) (q.setBody owner id') := by
  cases owner with
  | main =>
    refine { h with main := ?_ }
    show (p.main.map _).map _ = (q.main.map _).map _
    rw [Option.map_map, Option.map_map]
    exact h.main
  | script name => exact { h with scripts := view_setBody h.scripts name id id' }
  | function name => exact { h with functions := view_setBody h.functions name id id' }

theorem SameTables.callable? (h : l.SameTables p q) (owner : Owner) :
    (p.callable? owner).map l.viewCallable = (q.callable? owner).map l.viewCallable := by
  cases owner with
  | main => exact h.main
  | script name => exact Table.get?_of_view h.scripts name
  | function name => exact Table.get?_of_view h.functions name

/-! ## One body, all bodies -/

/-- Programs in which the bodies of a layer are being lowered. -/
structure Ready (l : Layer) (p q : Program) : Prop extends l.Alike p q where
  /-- What the definitions are expanded to counts from here on, and is the same. -/
  expansions : l.SameDefines p.defines q.defines
  /-- The first program is sound and at this layer. -/
  left : p.Sound ∧ p.depth = l.depth
  /-- So is the second. -/
  right : q.Sound ∧ q.depth = l.depth

theorem Ready.ground (h : l.Ready p q) (hl : 0 < l.depth) (s s' : Scope) :
    l.Ground (p.addRoot s) (q.addRoot s') where
  toSameTables := { h.toSameTables with }
  expansions := h.expansions
  depth_pos := hl
  left := by
    rw [← h.left.2, ← h.left.1.pools]
    exact Nat.le_refl _
  right := by
    rw [← h.right.2, ← h.right.1.pools]
    exact Nat.le_refl _
  pools := by
    show (p.anonymous l.depth).size = (q.anonymous l.depth).size
    rw [h.left.1.size_anonymous, h.right.1.size_anonymous, h.blocks]

theorem Ready.envLike (h : l.Ready p q) (owner : Owner) :
    Env.Like l (Env.body l owner p) (Env.body l owner q) where
  left := rfl
  right := rfl
  owner := rfl
  level := rfl
  params := by
    obtain ⟨hp, hq⟩ | ⟨c, c', hp, hq, hview⟩ := both_of_map_eq (h.callable? owner)
    · simp only [Env.body, hp, hq, Option.map_none]
    · simp only [Env.body, hp, hq, Option.map_some, Option.getD_some]
      exact congrArg CallableView.params hview
  outer := rfl

/-- The scopes of a body that was lowered in both programs are alike. -/
theorem Ready.lowered (h : l.Ready p q) (owner : Owner) {root root' : Scope} {new new' : List Scope}
    (hroot : root.unlinked = root'.unlinked) (hparent : root.parent = none)
    (hnew : new.map Scope.unlinked = new'.map Scope.unlinked) :
    l.Alike (((p.addRoot root).grow l.depth new).setBody owner p.scopes.size)
      (((q.addRoot root').grow l.depth new').setBody owner q.scopes.size) := by
  have hparent' : root'.parent = none := by
    have hnone := congrArg Scope.parent hroot
    simpa [Scope.unlinked, hparent] using hnone.symm
  have hblocks : ∀ r : Program, ∀ id, (r.setBody owner id).blocks l.depth = r.blocks l.depth := by
    intro r id
    cases owner <;> rfl
  have htables : l.SameTables ((p.addRoot root).grow l.depth new)
      ((q.addRoot root').grow l.depth new') := { h.toSameTables with }
  refine ⟨htables.setBody owner _ _, ?_, fun other ↦ ?_⟩
  · rw [hblocks, hblocks, Program.blocks_lowered p l.depth new hparent,
      Program.blocks_lowered q l.depth new' hparent', h.blocks, hnew]
  · rw [Program.bodySeen_lowered h.left.1, Program.bodySeen_lowered h.right.1]
    split
    · obtain ⟨hp, hq⟩ | ⟨c, c', hp, hq, hview⟩ := both_of_map_eq (h.callable? other)
      · rw [hp, hq]
        rfl
      · have hdepth : c.depth = l.depth ↔ c'.depth = l.depth := by
          simpa [viewCallable] using congrArg CallableView.isNew hview
        rw [hp, hq, Option.bind_some, Option.bind_some, if_congr hdepth rfl rfl]
        split
        · simp [hroot]
        · rfl
    · exact h.bodies other

/-- A body whose statements were lowered. -/
private theorem lowerBody_of_ok {owner : Owner} {body : Block} {t : Work} {new : List Scope}
    (h : lowerStmts (Env.body l owner p) body.stmts
      ⟨p.addRoot (.root l.depth owner), .root l.depth owner⟩ = .ok () t)
    (hnew : t.program = (p.addRoot (.root l.depth owner)).grow l.depth new) :
    lowerBody l owner body p = .ok p.scopes.size ((p.addRoot
      { t.scope with instructions := t.scope.instructions.push .loopback }).grow l.depth new) := by
  rw [lowerBody_apply, h, bodyResult, hnew, Program.set_grow_addRoot]

private theorem sound_lowered (hl : 0 < l.depth) {owner : Owner} {body : Block} {r : Program}
    {id : ScopeId} (hp : p.Sound ∧ p.depth = l.depth) (h : lowerBody l owner body p = .ok id r) :
    (r.setBody owner id).Sound ∧ (r.setBody owner id).depth = l.depth := by
  have hr := keeps_lowerBody hl owner body p hp
  rw [after_of_ok h] at hr
  refine ⟨hr.1.setBody (lowerBody_lt h), ?_⟩
  cases owner <;> exact hr.2

/-- Lowering one body and noting its scope. -/
theorem matches_lowerBody (hl : 0 < l.depth) (owner : Owner) (body : Block) :
    Matches l.Ready Eq
      (do
        let id ← lowerBody l owner body
        modify (·.setBody owner id))
      (do
        let id ← lowerBody l owner body
        modify (·.setBody owner id)) := by
  intro p q h
  have hstart : l.Twin (p.addRoot (.root l.depth owner)) (q.addRoot (.root l.depth owner))
      ⟨p.addRoot (.root l.depth owner), .root l.depth owner⟩
      ⟨q.addRoot (.root l.depth owner), .root l.depth owner⟩ :=
    ⟨⟨[], [], (Program.grow_nil _ _).symm, (Program.grow_nil _ _).symm, rfl⟩, rfl⟩
  have hagree := matches_lowerStmts (h.ground hl _ _) body.stmts (h.envLike owner) _ _ hstart
  cases hrun : lowerStmts (Env.body l owner p) body.stmts
      ⟨p.addRoot (.root l.depth owner), .root l.depth owner⟩ with
  | error e t =>
    obtain ⟨e', t', hrun', hcode⟩ := hagree.error_of_error hrun
    have hp : lowerBody l owner body p = .error e t.program := by
      rw [lowerBody_apply, hrun, bodyResult]
    have hq : lowerBody l owner body q = .error e' t'.program := by
      rw [lowerBody_apply, hrun', bodyResult]
    rw [bind_of_error hp, bind_of_error hq]
    exact hcode
  | ok u t =>
    obtain ⟨u', t', hrun', -, htwin⟩ := hagree.ok_of_ok hrun
    obtain ⟨new, new', ht, ht', hnew⟩ := htwin.programs
    have hp := lowerBody_of_ok hrun ht
    have hq := lowerBody_of_ok hrun' ht'
    have hparent := ((grows_lowerStmts _ _ _).2 hrun).parent
    rw [bind_of_ok hp, bind_of_ok hq]
    refine ⟨rfl, h.lowered owner ?_ hparent hnew, ?_, sound_lowered hl h.left hp,
      sound_lowered hl h.right hq⟩
    · exact congrArg (fun s : Scope ↦ { s with instructions := s.instructions.push .loopback })
        htwin.scope
    · cases owner <;> exact h.expansions

theorem matches_lowerAll (hl : 0 < l.depth) (bodies : List (Owner × Block)) :
    Matches l.Ready Eq (l.lowerAll bodies) (l.lowerAll bodies) := by
  induction bodies with
  | nil => exact .pure _
  | cons entry rest ih =>
    obtain ⟨owner, body⟩ := entry
    have hstep : l.lowerAll ((owner, body) :: rest) = (do
        (do
          let id ← lowerBody l owner body
          modify (·.setBody owner id))
        l.lowerAll rest) := by
      rw [lowerAll, bind_assoc]
    rw [hstep]
    exact .bind (matches_lowerBody hl owner body) fun _ ↦ ih

end Layer

end CharacterScript
