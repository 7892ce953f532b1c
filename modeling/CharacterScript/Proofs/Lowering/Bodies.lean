import CharacterScript.Proofs.Lowering.Statements
import Mathlib.Data.List.Induction
import Mathlib.Data.List.Nodup

/-!
# What the bodies of a layer are lowered to

The three loops that lower functions, scripts and `main` are one loop over callables with their
bodies, `lowerAll`. Each body gets a scope without a parent and the blocks in it the next places of
the pool; later bodies leave all that as it is. `bodiesCompiled` says this of a list of bodies in a
finished program, and `Session.Reachable.compiled` that every layer which is accepted ends in such a
program, with one body for each callable its items declare.

## From steps to layers

A body is lowered on its own, and leaves one root with its code and the scopes of its blocks
(`Lowered`). That the code means something is said of every program that goes on from there, since
later bodies will be put behind it. In the end there is one program that goes on from all of them,
and of that all is said at once.

Which bodies a layer has is decided by its items. Of a callable declared twice there would be two
bodies, but a layer cannot declare one twice, so each has exactly one.
-/

namespace CharacterScript

open Running

/-! ## Programs that go on

The relation is about the arena and the pools, and names that keep their meaning. -/

/-- `q` has everything that `p` has, at the same places. -/
structure Program.Extends (depth : Nat) (p q : Program) : Prop where
  /-- The names mean what they meant. -/
  names : p.SameNames q
  /-- No scope is lost. -/
  size : p.scopes.size ≤ q.scopes.size
  /-- No scope has changed. -/
  scopes : ∀ id < p.scopes.size, q.scope? id = p.scope? id
  /-- The pool of the layer has only grown. -/
  pool : (p.anonymous depth).toList <+: (q.anonymous depth).toList

namespace Program.Extends

variable {depth : Nat} {p q r : Program}

theorem refl : p.Extends depth p :=
  ⟨.refl, Nat.le_refl _, fun _ _ ↦ rfl, List.prefix_rfl⟩

theorem trans (h : p.Extends depth q) (h' : q.Extends depth r) : p.Extends depth r :=
  ⟨h.names.trans h'.names, h.size.trans h'.size,
    fun id hid ↦ (h'.scopes id (hid.trans_le h.size)).trans (h.scopes id hid),
    h.pool.trans h'.pool⟩

theorem grow {new : List Scope} (hpos : 0 < depth) (hle : depth ≤ p.pools.size) :
    p.Extends depth (p.grow depth new) := by
  refine ⟨.grow p depth new, ?_, fun id hid ↦ ?_, ?_⟩
  · rw [size_scopes_grow]
    exact Nat.le_add_right _ _
  · rw [Program.scope?, grow_scopes, Array.getElem?_append_left hid]
    rfl
  · rw [anonymous_grow p depth new hpos hle, Array.toList_append]
    exact List.prefix_append _ _

theorem addRoot (root : Scope) : p.Extends depth (p.addRoot root) := by
  refine ⟨⟨rfl, rfl, rfl, rfl, rfl⟩, ?_, fun id hid ↦ ?_, List.prefix_rfl⟩
  · rw [Program.addRoot, Array.size_push]
    exact Nat.le_succ _
  · show (p.scopes.push root)[id]? = p.scopes[id]?
    rw [Array.getElem?_push, if_neg (Nat.ne_of_lt hid)]

/-- What a program holds it goes on to hold. -/
theorem holds (h : p.Extends depth q) {a n : Nat} {new : List Scope}
    (hp : p.Holds depth a n new) : q.Holds depth a n new := by
  intro i t ht
  obtain ⟨hscope, hpool⟩ := hp i t ht
  obtain ⟨rest, hrest⟩ := h.pool
  refine ⟨?_, ?_⟩
  · rw [h.scopes _ (Array.getElem?_eq_some_iff.1 hscope).1, hscope]
  · rw [← Array.getElem?_toList] at hpool ⊢
    rw [← hrest, List.getElem?_append_left (List.getElem?_eq_some_iff.1 hpool).1, hpool]

end Program.Extends

/-- Growing a program gives one that holds what was added. -/
theorem Program.holds_grow {p : Program} {depth : Nat} {new : List Scope} (hpos : 0 < depth)
    (hle : depth ≤ p.pools.size) :
    (p.grow depth new).Holds depth p.scopes.size (p.anonymous depth).size new := by
  intro i t ht
  have hi : i < new.length := (List.getElem?_eq_some_iff.1 ht).1
  refine ⟨?_, ?_⟩
  · rw [Program.scope?, grow_scopes, Array.getElem?_append_right (Nat.le_add_right _ _)]
    simpa using ht
  · rw [anonymous_grow p depth new hpos hle, Array.getElem?_append_right (Nat.le_add_right _ _)]
    simp [hi]

/-! ## Setting bodies -/

namespace Layer

theorem map_bare_setBody (t : Table Callable) (name : String) (id : ScopeId) :
    (setBody t name id).map Callable.bare = t.map Callable.bare := by
  rw [setBody]
  split
  · exact Table.map_modifyAt _ _ fun _ ↦ rfl
  · rfl

end Layer

namespace Program

variable {p : Program} {owner : Owner} {id : ScopeId}

theorem callable?_setBody (other : Owner) :
    (p.setBody owner id).callable? other
      = if other = owner then (p.callable? other).map fun c ↦ { c with body := some id }
        else p.callable? other := by
  cases owner <;> cases other <;> simp [setBody, callable?, Layer.get?_setBody]

theorem extends_setBody {depth : Nat} : p.Extends depth (p.setBody owner id) := by
  cases owner with
  | main =>
    refine ⟨⟨rfl, rfl, rfl, ?_, rfl⟩, Nat.le_refl _, fun _ _ ↦ rfl, List.prefix_rfl⟩
    show (p.main.map _).map _ = _
    rw [Option.map_map]
    rfl
  | script name =>
    exact ⟨⟨rfl, rfl, Layer.map_bare_setBody _ _ _, rfl, rfl⟩, Nat.le_refl _, fun _ _ ↦ rfl,
      List.prefix_rfl⟩
  | function name =>
    exact ⟨⟨rfl, Layer.map_bare_setBody _ _ _, rfl, rfl, rfl⟩, Nat.le_refl _, fun _ _ ↦ rfl,
      List.prefix_rfl⟩

end Program

/-! ## One body

The root is put in first, then the blocks of the body behind it, in the order in which they
begin. -/

/-- The scope of the body of a callable. -/
structure Scope.IsRoot (s : Scope) (depth : Nat) (owner : Owner) : Prop where
  /-- It belongs to this layer. -/
  depth : s.depth = depth
  /-- Nothing is around it. -/
  level : s.level = 1
  /-- It belongs to this callable. -/
  owner : s.owner = owner
  /-- It is in no other block. -/
  parent : s.parent = none

/-- The callable has a body of its own, and the block became that body. -/
def BodyCompiled (p : Program) (l : Layer) (R : Rule) (place : Nat) (owner : Owner) (body : Block) :
    Prop :=
  ∃ c id s is, p.callable? owner = some c ∧ c.depth = l.depth ∧ c.body = some id ∧
    p.scope? id = some s ∧ s.IsRoot l.depth owner ∧ s.vars.toList = declaredVars l body.stmts ∧
    s.instructions.toList = is ++ [.loopback] ∧
    stmtsCompiled p l R id s (p.globalIdents ++ c.params) place body.stmts is

/-- The bodies are compiled one after the other, with the places from `place` on, and together their
blocks are all of the pool. -/
def bodiesCompiled (p : Program) (l : Layer) (R : Rule) (place : Nat) : List (Owner × Block) → Prop
  | [] => (p.anonymous l.depth).size = place
  | (owner, body) :: rest => BodyCompiled p l R place owner body ∧
      bodiesCompiled p l R (place + stmtBlocks body.stmts) rest

/-- What lowering a body makes of a program: a root, and the scopes of its blocks. -/
private structure Lowered (l : Layer) (owner : Owner) (body : Block) (p q : Program)
    (id : ScopeId) : Prop where
  /-- The root is allocated first. -/
  id_eq : id = p.scopes.size
  /-- The root has the variables and the code of the body, which are well read in every program that
  goes on from here, and the other new scopes are those of the blocks in it. -/
  grown : ∃ root new is, q = (p.addRoot root).grow l.depth new ∧
    root.IsRoot l.depth owner ∧ new.length = stmtBlocks body.stmts ∧
    (∀ s ∈ new, s.parent.isSome) ∧ root.vars.toList = declaredVars l body.stmts ∧
    root.instructions.toList = is ++ [.loopback] ∧
    ∀ r, r.Sound → q.Extends l.depth r →
      stmtsCompiled r l (.sound r l) id root
        (p.globalIdents ++ ((p.callable? owner).map (·.params)).getD [])
        (p.anonymous l.depth).size body.stmts is

theorem Env.body_fits {l : Layer} {p : Program} (hpos : 0 < l.depth) (hle : l.depth ≤ p.pools.size)
    (owner : Owner) :
    (Env.body l owner p).Fits ⟨p.addRoot (.root l.depth owner), .root l.depth owner⟩ := by
  refine ⟨hpos, hle, ?_⟩
  show p.scopes.size < (p.scopes.push _).size
  rw [Array.size_push]
  exact Nat.lt_succ_self _

private theorem lowerBody_lowered {l : Layer} {owner : Owner} {body : Block} {p q : Program}
    {id : ScopeId} (hpos : 0 < l.depth) (hle : l.depth ≤ p.pools.size)
    (h : lowerBody l owner body p = .ok id q) : Lowered l owner body p q id := by
  refine ⟨lowerBody_id h, ?_⟩
  rw [lowerBody_apply] at h
  cases hrun : lowerStmts (Env.body l owner p) body.stmts
      ⟨p.addRoot (.root l.depth owner), .root l.depth owner⟩ with
  | error e t =>
    rw [hrun] at h
    contradiction
  | ok u t =>
    rw [hrun] at h
    cases h
    have hfits := Env.body_fits hpos hle owner
    obtain ⟨is, hran⟩ := lowerStmts_ran body.stmts hfits hrun
    obtain ⟨new, hgrow, hlength, hC⟩ := hran.grown
    -- growth is known twice over: what was compiled, and that every new scope has a parent
    obtain ⟨new', hgrow', hparents⟩ :=
      (grows_lowerStmts (Env.body l owner p) body.stmts).program hrun
    obtain rfl : new = new' := Program.grow_inj _ _ _ _ (hgrow.symm.trans hgrow')
    -- the root stood empty while the blocks were added behind it
    have hq : { t.program with
        scopes := t.program.scopes.setIfInBounds p.scopes.size
          { t.scope with instructions := t.scope.instructions.push .loopback } }
        = (p.addRoot { t.scope with instructions := t.scope.instructions.push .loopback }).grow
          l.depth new := by
      dsimp only at hgrow
      rw [hgrow]
      exact Program.set_grow_addRoot _ _ _ _ _
    refine ⟨{ t.scope with instructions := t.scope.instructions.push .loopback }, new, is, hq,
      ⟨hran.head.depth, hran.head.level, hran.head.owner, hran.head.parent⟩, hlength,
      fun s hs ↦ (hparents s hs).2, hran.vars, ?_, fun r hr hext ↦ ?_⟩
    · rw [Array.toList_push, hran.code]
      rfl
    · have hfin : Finishes (Env.body l owner p) t r
          { t.scope with instructions := t.scope.instructions.push .loopback } :=
        { sound := hr
          names := ⟨hext.names.globals, hext.names.functions, hext.names.scripts, hext.names.main,
            hext.names.defines⟩
          numbers := List.prefix_rfl
          strings := List.prefix_rfl
          level := hran.head.level
          owner := hran.head.owner
          depth := hran.head.depth }
      rw [hq] at hext
      have hholds : r.Holds l.depth (p.addRoot (.root l.depth owner)).scopes.size
          (p.anonymous l.depth).size new := by
        have hgrown := hext.holds (Program.holds_grow hpos hle)
        rw [Program.addRoot, Array.size_push] at hgrown ⊢
        exact hgrown
      have hcompiled := hC r _ hfin hholds
      have hvars : (Env.body l owner p).vars ⟨p.addRoot (.root l.depth owner), .root l.depth owner⟩
          = p.globalIdents ++ ((p.callable? owner).map (·.params)).getD [] := by
        show p.globalIdents ++ _ ++ [] ++ [] = _
        rw [List.append_nil, List.append_nil]
        rfl
      rw [hvars] at hcompiled
      exact hcompiled

/-! ## All bodies -/

/-- What lowering a list of bodies leads to. -/
private structure AllLowered (l : Layer) (bodies : List (Owner × Block)) (p q : Program) :
    Prop where
  /-- All that was there before is still there. -/
  ext : p.Extends l.depth q
  /-- The bodies were compiled, one after the other. -/
  compiled : bodiesCompiled q l (.sound q l) (p.anonymous l.depth).size bodies
  /-- No other callable has changed. -/
  others : ∀ owner, owner ∉ bodies.map (·.1) → q.callable? owner = p.callable? owner
  /-- A new scope without a parent is the body of the callable it belongs to. -/
  roots : ∀ id s, q.scope? id = some s → s.parent = none → p.scopes.size ≤ id →
    s.owner ∈ bodies.map (·.1) ∧ ∃ c, q.callable? s.owner = some c ∧ c.body = some id

/-- One body and those after it. -/
private theorem Lowered.cons {l : Layer} {owner : Owner} {body : Block}
    {rest : List (Owner × Block)} {p p₁ q : Program} {id : ScopeId} {c : Callable}
    (h : Lowered l owner body p p₁ id) (hrest : AllLowered l rest (p₁.setBody owner id) q)
    (hpos : 0 < l.depth) (hle : l.depth ≤ p.pools.size) (hq : q.Sound)
    (howner : owner ∉ rest.map (·.1)) (hc : p.callable? owner = some c)
    (hdepth : c.depth = l.depth) : AllLowered l ((owner, body) :: rest) p q := by
  obtain ⟨rfl, root, new, is, rfl, hroot, hlength, hparents, hvars, hcode, hcompiled⟩ := h
  have hext : p.Extends l.depth ((p.addRoot root).grow l.depth new) :=
    (Program.Extends.addRoot root).trans (.grow hpos hle)
  have hext' := Program.extends_setBody.trans hrest.ext
  have hsize : ((p.addRoot root).grow l.depth new).scopes.size =
      p.scopes.size + 1 + new.length := by
    rw [Program.size_scopes_grow, Program.addRoot, Array.size_push]
  have hplace : ((((p.addRoot root).grow l.depth new).setBody owner p.scopes.size).anonymous
      l.depth).size = (p.anonymous l.depth).size + stmtBlocks body.stmts := by
    rw [Program.setBody_anonymous, Program.anonymous_grow (p.addRoot root) l.depth new hpos hle,
      Array.size_append, ← hlength]
    simp only [List.size_toArray, List.length_range']
    rfl
  -- the callable has its body, and the bodies after it leave it alone
  have hcallable : q.callable? owner = some { c with body := some p.scopes.size } := by
    rw [hrest.others owner howner, Program.callable?_setBody, if_pos rfl]
    show (p.callable? owner).map _ = _
    rw [hc]
    rfl
  have hscope : ∀ id < p.scopes.size + 1 + new.length, q.scope? id =
      if id < p.scopes.size + 1 then (p.addRoot root).scope? id
      else new[id - (p.scopes.size + 1)]? := by
    intro id hid
    rw [hext'.scopes id (hsize ▸ hid)]
    simp only [Program.scope?, Program.grow_scopes, Program.addRoot, Array.getElem?_append,
      Array.size_push, List.getElem?_toArray]
  have hrootScope : q.scope? p.scopes.size = some root := by
    rw [hscope _ (by omega), if_pos (Nat.lt_succ_self _)]
    simp [Program.scope?, Program.addRoot]
  refine ⟨hext.trans hext', ⟨⟨_, _, root, is, hcallable, hdepth, rfl, hrootScope, hroot, hvars,
    hcode, ?_⟩, ?_⟩, fun other hother ↦ ?_, fun id s hs hparent hid ↦ ?_⟩
  · have hstmts := hcompiled q hq hext'
    rw [hc] at hstmts
    rw [(hext.trans hext').names.globalIdents]
    exact hstmts
  · rw [← hplace]
    exact hrest.compiled
  · rw [List.map_cons, List.mem_cons, not_or] at hother
    rw [hrest.others other hother.2, Program.callable?_setBody, if_neg hother.1]
    cases other <;> rfl
  · rw [List.map_cons, List.mem_cons]
    rcases Nat.lt_or_ge id (p.scopes.size + 1 + new.length) with hlt | hge
    -- a scope of this body is its root, or it has a parent
    · rw [hscope id hlt] at hs
      split at hs
      next hle' =>
        obtain rfl : id = p.scopes.size := Nat.le_antisymm (Nat.le_of_lt_succ hle') hid
        obtain rfl : root = s := by simpa [Program.scope?, Program.addRoot] using hs
        rw [hroot.owner]
        exact ⟨.inl rfl, _, hcallable, rfl⟩
      next =>
        have hsome := hparents s (List.mem_of_getElem? hs)
        rw [hparent] at hsome
        contradiction
    · have hafter : (((p.addRoot root).grow l.depth new).setBody owner p.scopes.size).scopes.size
          ≤ id := by
        rwa [Program.setBody_scopes, hsize]
      obtain ⟨hmem, hbody⟩ := hrest.roots id s hs hparent hafter
      exact ⟨.inr hmem, hbody⟩

private theorem lowerAll_lowered {l : Layer} (hpos : 0 < l.depth) {bodies : List (Owner × Block)}
    {p q : Program} (hp : p.Sound) (hdepth : p.depth = l.depth) (hnodup : (bodies.map (·.1)).Nodup)
    (hcallables : ∀ owner ∈ bodies.map (·.1), ∃ c, p.callable? owner = some c ∧ c.depth = l.depth)
    (h : l.lowerAll bodies p = .ok () q) : AllLowered l bodies p q := by
  induction bodies generalizing p with
  | nil =>
    obtain ⟨-, rfl⟩ := pure_eq_ok.1 h
    refine ⟨.refl, rfl, fun _ _ ↦ rfl, fun id s hs _ hid ↦ ?_⟩
    exact absurd (Array.getElem?_eq_some_iff.1 hs).1 (Nat.not_lt.2 hid)
  | cons entry rest ih =>
    obtain ⟨owner, body⟩ := entry
    have hq : q.Sound := (after_of_ok h ▸ Layer.keeps_lowerAll hpos _ p ⟨hp, hdepth⟩).1
    rw [Layer.lowerAll] at h
    obtain ⟨id, p₁, hbody, h₁⟩ := bind_eq_ok.1 h
    rw [modify_bind] at h₁
    have hle : l.depth ≤ p.pools.size := (hp.pools.trans hdepth).ge
    have hlowered := lowerBody_lowered hpos hle hbody
    obtain ⟨hp₁, hdepth₁⟩ := after_of_ok hbody ▸ Layer.keeps_lowerBody hpos owner body
      p ⟨hp, hdepth⟩
    rw [List.map_cons, List.nodup_cons] at hnodup
    obtain ⟨c, hc, hcdepth⟩ := hcallables owner List.mem_cons_self
    -- setting a body changes one callable, and the bodies to come are those of other ones
    have hsame : ∀ other, p₁.callable? other = p.callable? other := by
      obtain ⟨-, root, new, is, rfl, -⟩ := hlowered
      intro other
      cases other <;> rfl
    refine hlowered.cons (ih (hp₁.setBody (Layer.lowerBody_lt hbody)) ?_ hnodup.2
      (fun other hother ↦ ?_) h₁) hpos hle hq hnodup.1 hc hcdepth
    · cases owner <;> exact hdepth₁
    · have hne : other ≠ owner := fun heq ↦ hnodup.1 (heq ▸ hother)
      rw [Program.callable?_setBody, if_neg hne, hsame]
      exact hcallables other (List.mem_cons_of_mem _ hother)

/-! ## The bodies of a layer

The steps of a layer are taken apart once: `compile_eq_ok` says of a layer that was accepted what
each of its steps has done. -/

namespace Layer

variable {l : Layer}

/-- The bodies that a layer lowers, in order, once everything is declared. -/
def toLower (l : Layer) (p : Program) (items : List Item) : List (Owner × Block) :=
  ((l.current p.functions (bodies .function items)).map fun (name, body) ↦
    (.function name, body)) ++
    ((l.current p.scripts (bodies .script items)).map fun (name, body) ↦ (.script name, body)) ++
    ((bodies .script items).get? mainName).toList.map fun body ↦ (.main, body)

/-- Two rounds of bodies are one round. -/
theorem lowerAll_append (l : Layer) (xs ys : List (Owner × Block)) :
    l.lowerAll (xs ++ ys) = (do
      l.lowerAll xs
      l.lowerAll ys) := by
  induction xs with
  | nil => rfl
  | cons x xs ih =>
    obtain ⟨owner, body⟩ := x
    rw [List.cons_append, lowerAll, lowerAll, ih]
    simp only [bind_assoc]

/-- Lowering functions leaves the table of scripts alone. -/
private theorem scripts_lowerFunctions {xs : List (String × Block)} {p q : Program}
    (h : l.lowerFunctions xs p = .ok () q) : q.scripts = p.scripts := by
  induction xs generalizing p with
  | nil =>
    obtain ⟨-, rfl⟩ := pure_eq_ok.1 h
    rfl
  | cons entry xs ih =>
    obtain ⟨name, body⟩ := entry
    rw [lowerFunctions] at h
    obtain ⟨id, p₁, hbody, h₁⟩ := bind_eq_ok.1 h
    obtain ⟨root, new, hafter, -⟩ := after_lowerBody l (.function name) body p
    rw [after_of_ok hbody] at hafter
    rw [modify_bind] at h₁
    rw [ih h₁, hafter]
    rfl

/-- The loops over functions, scripts and `main`, one after the other. -/
private def lowerLoops (l : Layer) (items : List Item) : EStateM Problem Program Unit := do
  l.lowerFunctions (l.current (← get).functions (bodies .function items))
  l.lowerScripts (l.current (← get).scripts (bodies .script items))
  l.lowerMain ((bodies .script items).get? mainName)

/-- They are one loop over what there is to lower before the first of them. -/
private theorem lowerLoops_apply (l : Layer) (items : List Item) (p : Program) :
    l.lowerLoops items p = l.lowerAll (l.toLower p items) p := by
  rw [toLower, lowerAll_append, lowerAll_append, ← lowerFunctions_eq, ← lowerScripts_eq,
    ← lowerMain_eq, bind_assoc, lowerLoops, get_bind]
  cases h : l.lowerFunctions (l.current p.functions (bodies .function items)) p with
  | error e q => rw [bind_of_error h, bind_of_error h]
  | ok u q =>
    -- the scripts to lower are looked up after the functions have been lowered
    rw [bind_of_ok h, bind_of_ok h, get_bind, scripts_lowerFunctions h]

/-- A layer declares its items and is recorded; then, if there is a `main`, it expands the
definitions and lowers the bodies. -/
theorem compile_eq (l : Layer) (items : List Item) :
    l.compile items = (do
      l.declareAll items
      modify fun p ↦ { p with layers := p.layers.push (l.info items) }
      if (← get).main.isNone then throw .missingMain
      onDefines Expansion.expandAll
      l.lowerAll (l.toLower (← get) items)) := by
  have hloops : l.lowerLoops items = (do l.lowerAll (l.toLower (← get) items)) := by
    funext p
    rw [lowerLoops_apply]
    rfl
  rw [lowerLoops] at hloops
  rw [compile]
  dsimp only
  rw [hloops]

/-- The program after the items were declared and the definitions expanded. -/
def expanded (l : Layer) (items : List Item) (declared : Program) (defines : Table Define) :
    Program :=
  { declared with layers := declared.layers.push (l.info items), defines }

theorem callable?_expanded (items : List Item) (declared : Program) (defines : Table Define)
    (owner : Owner) : (l.expanded items declared defines).callable? owner =
      declared.callable? owner := by
  cases owner <;> rfl

/-- A layer that compiles declares its items, expands the definitions, and lowers the bodies. -/
theorem compile_stages {items : List Item} {p q : Program} (h : l.compile items p = .ok () q) :
    ∃ declared defines, l.declareAll items p = .ok () declared ∧
      Expansion.expandAll declared.defines = .ok () defines ∧
      l.lowerAll (l.toLower (l.expanded items declared defines) items)
        (l.expanded items declared defines) = .ok () q := by
  rw [compile_eq] at h
  obtain ⟨⟨⟩, declared, hdeclared, h₁⟩ := bind_eq_ok.1 h
  rw [modify_bind, get_bind] at h₁
  split at h₁
  · obtain ⟨_, _, hthrow, -⟩ := bind_eq_ok.1 h₁
    exact absurd hthrow throw_ne_ok
  · obtain ⟨⟨⟩, next, hnext, h₂⟩ := bind_eq_ok.1 h₁
    rw [onDefines] at hnext
    dsimp only at hnext
    split at hnext
    next defines hdefines =>
      cases hnext
      exact ⟨declared, defines, hdeclared, hdefines, h₂⟩
    next => contradiction

/-- What the later stages of a layer leave alone. -/
theorem compile_eq_ok {items : List Item} {p q : Program} (h : l.compile items p = .ok () q) :
    ∃ declared expanded, l.declareAll items p = .ok () declared ∧
      expanded.scopes = declared.scopes ∧
      (∀ owner, expanded.callable? owner = declared.callable? owner) ∧
      Expansion.SameTexts declared.defines expanded.defines ∧
      l.Keeps declared expanded ∧ l.lowerAll (l.toLower expanded items) expanded = .ok () q := by
  obtain ⟨declared, defines, hdeclared, hdefines, hlower⟩ := compile_stages h
  have htexts : Expansion.SameTexts declared.defines defines :=
    after_of_ok hdefines ▸ Expansion.sameTexts_expandAll declared.defines
  refine ⟨declared, l.expanded items declared defines, hdeclared, rfl,
    callable?_expanded items declared defines, htexts, fun hp ↦ ?_, hlower⟩
  -- recording the layer has nothing to do with soundness
  obtain ⟨hsound, hdepth⟩ := keeps_sameTexts htexts hp
  exact ⟨{ hsound with }, hdepth⟩

/-! ### Which bodies these are -/

theorem mem_current {t : Table Callable} {bs : Table Block} {name : String} {body : Block} :
    (name, body) ∈ l.current t bs ↔
      (∃ c, t.get? name = some c ∧ c.depth = l.depth) ∧ bs.get? name = some body := by
  rw [current, List.mem_filterMap]
  constructor
  · rintro ⟨⟨other, c⟩, hc, hbody⟩
    dsimp only at hbody
    split at hbody
    next hdepth =>
      obtain ⟨b, hb, heq⟩ := Option.map_eq_some_iff.1 hbody
      obtain ⟨rfl, rfl⟩ := Prod.mk.inj heq
      exact ⟨⟨c, Table.mem_toList_iff_get?.1 hc, hdepth⟩, hb⟩
    next => contradiction
  · rintro ⟨⟨c, hc, hdepth⟩, hbody⟩
    refine ⟨(name, c), Table.mem_toList_iff_get?.2 hc, ?_⟩
    dsimp only
    rw [if_pos hdepth, hbody]
    rfl

/-- Entries that keep their names, if they are kept, are a part of the list by their names. -/
private theorem sublist_names_filterMap {α β : Type} {f : String × α → Option (String × β)}
    (hf : ∀ e b, f e = some b → b.1 = e.1) (es : List (String × α)) :
    ((es.filterMap f).map (·.1)).Sublist (es.map (·.1)) := by
  induction es with
  | nil => exact List.Sublist.slnil
  | cons e es ih =>
    cases he : f e with
    | none =>
      rw [List.filterMap_cons_none he]
      exact ih.cons _
    | some b =>
      rw [List.filterMap_cons_some he, List.map_cons, List.map_cons, hf e b he]
      exact ih.cons_cons _

theorem nodup_current (t : Table Callable) (bs : Table Block) :
    ((l.current t bs).map (·.1)).Nodup := by
  refine (Table.nodup_names t).sublist (sublist_names_filterMap ?_ t.toList)
  rintro ⟨name, c⟩ b hb
  dsimp only at hb
  split at hb
  · obtain ⟨body, -, rfl⟩ := Option.map_eq_some_iff.1 hb
    rfl
  · contradiction

private theorem bodies_concat (kind : CallableKind) (items : List Item) (i : Item) :
    bodies kind (items ++ [i])
      = match i with
        | .callable d =>
          if d.kind = kind then (bodies kind items).insert d.name d.body else bodies kind items
        | _ => bodies kind items := by
  rw [bodies, List.foldl_append]
  rfl

theorem mem_of_bodies_get? {kind : CallableKind} {name : String} {body : Block}
    {items : List Item} (h : (bodies kind items).get? name = some body) :
    ∃ d, .callable d ∈ items ∧ d.kind = kind ∧ d.name = name ∧ d.body = body := by
  induction items using List.reverseRecOn with
  | nil =>
    rw [bodies, List.foldl_nil, Table.get?_empty] at h
    contradiction
  | append_singleton items i ih =>
    have hold : (bodies kind items).get? name = some body →
        ∃ d, .callable d ∈ items ++ [i] ∧ d.kind = kind ∧ d.name = name ∧
          d.body = body := fun h ↦ by
      obtain ⟨d, hd, hrest⟩ := ih h
      exact ⟨d, List.mem_append_left _ hd, hrest⟩
    rw [bodies_concat] at h
    cases i with
    | directive | global | define => exact hold h
    | callable d =>
      dsimp only at h
      split at h
      next hkind =>
        rw [Table.get?_insert] at h
        split at h
        next hname =>
          cases h
          exact ⟨d, List.mem_append_right _ List.mem_cons_self, hkind, hname.symm, rfl⟩
        next => exact hold h
      next => exact hold h

theorem bodies_get?_isSome {d : CallableDecl} {items : List Item} (h : .callable d ∈ items) :
    ((bodies d.kind items).get? d.name).isSome := by
  induction items using List.reverseRecOn with
  | nil => contradiction
  | append_singleton items i ih =>
    rw [bodies_concat]
    rcases List.mem_append.1 h with h | h
    · have hold := ih h
      cases i with
      | directive | global | define => exact hold
      | callable e =>
        dsimp only
        split
        · rw [Table.get?_insert]
          split
          · rfl
          · exact hold
        · exact hold
    · obtain rfl := List.mem_singleton.1 h
      dsimp only
      rw [if_pos rfl, Table.get?_insert_self]
      rfl

/-- The body found under a name is the one an item gives for it, because each callable is declared
once. -/
theorem bodies_get?_iff {p : Program} {items : List Item} (h : l.Gives items p)
    {kind : CallableKind} {name : String} {body : Block} :
    (bodies kind items).get? name = some body ↔
      ∃ d, .callable d ∈ items ∧ d.kind = kind ∧ d.name = name ∧ d.body = body := by
  refine ⟨mem_of_bodies_get?, ?_⟩
  rintro ⟨d, hd, rfl, rfl, rfl⟩
  obtain ⟨body, hbody⟩ := Option.isSome_iff_exists.1 (bodies_get?_isSome hd)
  obtain ⟨e, he, hkind, hname, rfl⟩ := mem_of_bodies_get? hbody
  have howner : e.owner = d.owner := by
    rw [CallableDecl.owner, CallableDecl.owner, hkind, hname]
  have heq : (e.owner, e.body) = (d.owner, d.body) :=
    List.inj_on_of_nodup_map h.owners (mem_bodiesOf.2 ⟨e, he, rfl, rfl⟩)
      (mem_bodiesOf.2 ⟨d, hd, rfl, rfl⟩) howner
  rw [hbody, (Prod.mk.inj heq).2]

theorem mem_toLower {p : Program} {items : List Item} (hp : p.Sound) (h : l.Gives items p)
    {owner : Owner} {body : Block} :
    (owner, body) ∈ l.toLower p items ↔ (owner, body) ∈ bodiesOf items := by
  have hcallable : (owner, body) ∈ bodiesOf items →
      ∃ c, p.callable? owner = some c ∧ c.depth = l.depth := fun hbody ↦
    (h.callables owner).2 ⟨body, hbody⟩
  rw [mem_bodiesOf] at hcallable ⊢
  -- each of the three lists has the owners of one kind
  cases owner with
  | function name =>
    simp only [toLower, List.mem_append, List.mem_map, Prod.mk.injEq, Prod.exists, reduceCtorEq,
      false_and, and_false, exists_false, or_false, Owner.function.injEq, exists_eq_right_right,
      exists_eq_right, mem_current, bodies_get?_iff h]
    constructor
    · rintro ⟨-, d, hd, hkind, hname, hbody⟩
      exact ⟨d, hd, CallableDecl.owner_eq_function.2 ⟨hkind, hname⟩, hbody⟩
    · rintro ⟨d, hd, howner, hbody⟩
      obtain ⟨hkind, hname⟩ := CallableDecl.owner_eq_function.1 howner
      exact ⟨hcallable ⟨d, hd, howner, hbody⟩, d, hd, hkind, hname, hbody⟩
  | script name =>
    simp only [toLower, List.mem_append, List.mem_map, Prod.mk.injEq, Prod.exists, reduceCtorEq,
      false_and, and_false, exists_false, or_false, false_or, Owner.script.injEq,
      exists_eq_right_right, exists_eq_right, mem_current, bodies_get?_iff h]
    constructor
    · rintro ⟨⟨c, hc, -⟩, d, hd, hkind, hname, hbody⟩
      -- `main` is not in the table of scripts
      have hne : name ≠ mainName := by
        rintro rfl
        rw [hp.main_not_script] at hc
        contradiction
      exact ⟨d, hd, CallableDecl.owner_eq_script.2 ⟨hkind, hname, hne⟩, hbody⟩
    · rintro ⟨d, hd, howner, hbody⟩
      obtain ⟨hkind, hname, -⟩ := CallableDecl.owner_eq_script.1 howner
      exact ⟨hcallable ⟨d, hd, howner, hbody⟩, d, hd, hkind, hname, hbody⟩
  | main =>
    simp only [toLower, List.mem_append, List.mem_map, Prod.mk.injEq, reduceCtorEq, false_and,
      and_false, exists_false, false_or, true_and, exists_eq_right, Option.mem_toList,
      bodies_get?_iff h, CallableDecl.owner_eq_main, and_assoc]

theorem nodup_toLower (p : Program) (items : List Item) :
    ((l.toLower p items).map (·.1)).Nodup := by
  have hmap : (l.toLower p items).map (·.1)
      = ((l.current p.functions (bodies .function items)).map (·.1)).map Owner.function ++
        ((l.current p.scripts (bodies .script items)).map (·.1)).map Owner.script ++
        ((bodies .script items).get? mainName).toList.map fun _ ↦ Owner.main := by
    simp [toLower, Function.comp_def]
  rw [hmap, List.nodup_append, List.nodup_append]
  refine ⟨⟨(nodup_current _ _).map fun _ _ ↦ Owner.function.inj,
    (nodup_current _ _).map fun _ _ ↦ Owner.script.inj, fun a ha b hb ↦ ?_⟩, ?_, fun a ha b hb ↦ ?_⟩
  · obtain ⟨f, -, rfl⟩ := List.mem_map.1 ha
    obtain ⟨g, -, rfl⟩ := List.mem_map.1 hb
    exact Owner.noConfusion
  · cases (bodies .script items).get? mainName <;> simp
  · obtain ⟨_, -, rfl⟩ := List.mem_map.1 hb
    rcases List.mem_append.1 ha with ha | ha <;> obtain ⟨f, -, rfl⟩ := List.mem_map.1 ha <;>
      exact Owner.noConfusion

/-! ## Accepted layers -/

/-- What has become of the items of a layer in a program. -/
structure Compiled (l : Layer) (items : List Item) (p : Program) : Prop where
  /-- The program is sound. -/
  sound : p.Sound
  /-- Each body the items give was compiled, one after the other. -/
  bodies : ∃ order, order.Perm (bodiesOf items) ∧ bodiesCompiled p l (.sound p l) 0 order
  /-- The callables of the layer are those the items give a body. -/
  callables : ∀ owner, (∃ c, p.callable? owner = some c ∧ c.depth = l.depth) ↔
    ∃ body, (owner, body) ∈ bodiesOf items
  /-- A body in this layer is that of a callable of this layer. -/
  roots : ∀ {id s}, p.scope? id = some s → s.depth = l.depth → s.parent = none →
    ∃ c, p.callable? s.owner = some c ∧ c.depth = l.depth ∧ c.body = some id
  /-- A definition of the layer stands where one of the items does. -/
  defines : ∀ {name e}, p.defines.get? name = some e → e.depth ≤ l.depth ∧
    (e.depth = l.depth → ∃ d, .define d ∈ items ∧ d.span.start = e.offset)

/-- A program that has nothing of this layer yet. -/
theorem gives_nil {p : Program} (hp : p.Sound) (hdepth : p.depth < l.depth) :
    l.Gives [] (Session.deepen p) := by
  refine ⟨List.nodup_nil, fun owner ↦ ⟨?_, ?_⟩, fun name e he hdepth' ↦ ?_⟩
  · rintro ⟨c, hc, hcdepth⟩
    have hold : p.callable? owner = some c := by
      cases owner <;> exact hc
    exact absurd (hp.callable hold).depth_le (Nat.not_le.2 (hcdepth ▸ hdepth))
  · rintro ⟨body, hbody⟩
    contradiction
  · exact absurd (hp.defines e (Table.mem_values_iff.2 ⟨name, he⟩))
      (Nat.not_le.2 (hdepth' ▸ hdepth))

/-- Expanding definitions changes neither the callables nor where definitions stand. -/
theorem Gives.of_sameTexts {items : List Item} {p q : Program} (h : l.Gives items p)
    (hsame : ∀ owner, q.callable? owner = p.callable? owner)
    (htexts : Expansion.SameTexts p.defines q.defines) : l.Gives items q := by
  refine ⟨h.owners, fun owner ↦ by rw [hsame]; exact h.callables owner, fun name e he hdepth ↦ ?_⟩
  obtain ⟨old, hold, hreset⟩ := htexts.get? he
  have hdepth' : old.depth = l.depth := (congrArg Define.depth hreset).trans hdepth
  obtain ⟨d, hmem, hoffset⟩ := h.defines _ _ hold hdepth'
  exact ⟨d, hmem, hoffset.trans (congrArg Define.offset hreset :)⟩

/-- The program from which the bodies are lowered is sound and has what the items give. -/
theorem gives_expanded {items : List Item} {p declared : Program} {defines : Table Define}
    (hp : p.Sound) (hdepth : l.depth = p.depth + 1)
    (hword : ∀ d, .callable d ∈ items → IsWord d.name)
    (hdeclared : l.declareAll items (Session.deepen p) = .ok () declared)
    (hdefines : Expansion.expandAll declared.defines = .ok () defines) :
    (l.expanded items declared defines).Sound ∧
      (l.expanded items declared defines).depth = l.depth ∧
      l.Gives items (l.expanded items declared defines) := by
  have htexts : Expansion.SameTexts declared.defines defines :=
    after_of_ok hdefines ▸ Expansion.sameTexts_expandAll declared.defines
  have hkept := after_of_ok hdeclared ▸ keeps_declareAll items _ hword ⟨hp.deepen, hdepth.symm⟩
  refine ⟨{ (keeps_sameTexts htexts hkept).1 with }, hkept.2, ?_⟩
  exact (declareAll_gives (gives_nil hp (hdepth ▸ Nat.lt_succ_self _)) hdeclared).of_sameTexts
    (callable?_expanded items declared defines) htexts

private theorem anonymous_eq_empty {p : Program} (hp : p.Sound)
    (h : ∀ id s, p.scope? id = some s → s.depth < l.depth) : (p.anonymous l.depth).size = 0 := by
  rw [← Array.length_toList, List.length_eq_zero_iff, List.eq_nil_iff_forall_not_mem]
  intro id hid
  obtain ⟨s, hs, hdepth, -⟩ :=
    Program.isAnonymous_iff.1 (List.mem_filter.1 (hp.anonymous _ ▸ hid)).2
  exact absurd (h id s hs) (hdepth ▸ Nat.lt_irrefl _)

theorem compiled_of_compile {items : List Item} {p q : Program} (hp : p.Sound)
    (hdepth : l.depth = p.depth + 1) (hword : ∀ d, .callable d ∈ items → IsWord d.name)
    (h : l.compile items (Session.deepen p) = .ok () q) : l.Compiled items q := by
  have hpos : 0 < l.depth := hdepth ▸ Nat.succ_pos _
  have hstart : (Session.deepen p).Sound ∧ (Session.deepen p).depth = l.depth :=
    ⟨hp.deepen, hdepth.symm⟩
  have hq := after_of_ok h ▸ keeps_compile hpos hword _ hstart
  obtain ⟨declared, expanded, hdeclared, hscopes, hsame, htexts, hkeeps, hlower⟩ := compile_eq_ok h
  have hgives : l.Gives items declared :=
    declareAll_gives (gives_nil hp (hdepth ▸ Nat.lt_succ_self _)) hdeclared
  have hexpanded := hkeeps (after_of_ok hdeclared ▸ keeps_declareAll items _ hword hstart)
  have hgives' := hgives.of_sameTexts hsame htexts
  -- every scope is from before this layer until bodies are lowered
  have hold : ∀ id s, expanded.scope? id = some s → s.depth < l.depth := fun id s hs ↦ by
    rw [Program.scope?, hscopes, scopes_declareAll hdeclared] at hs
    exact hdepth ▸ Nat.lt_succ_of_le (hp.depths hs).2
  have hmem : ∀ {owner}, owner ∈ (l.toLower expanded items).map (·.1) →
      ∃ c, expanded.callable? owner = some c ∧ c.depth = l.depth := fun {owner} howner ↦ by
    obtain ⟨⟨_, body⟩, hbody, rfl⟩ := List.mem_map.1 howner
    exact (hgives'.callables _).2 ⟨body, (mem_toLower hexpanded.1 hgives').1 hbody⟩
  have hall := lowerAll_lowered hpos hexpanded.1 hexpanded.2 (nodup_toLower _ _) (fun _ ↦ hmem)
    hlower
  have hbare : ∀ owner, (∃ c, q.callable? owner = some c ∧ c.depth = l.depth) ↔
      ∃ c, expanded.callable? owner = some c ∧ c.depth = l.depth := fun owner ↦ by
    have hnames := hall.ext.names
    constructor
    · rintro ⟨c, hc, hd⟩
      obtain ⟨c', hc', hbare⟩ := hnames.symm.callable_some hc
      exact ⟨c', hc', (congrArg Callable.depth hbare).trans hd⟩
    · rintro ⟨c, hc, hd⟩
      obtain ⟨c', hc', hbare⟩ := hnames.callable_some hc
      exact ⟨c', hc', (congrArg Callable.depth hbare).trans hd⟩
  refine ⟨hq.1, ⟨l.toLower expanded items, ?_, ?_⟩, fun owner ↦ ?_, fun {id s} hs hd hparent ↦ ?_,
    fun {name e} he ↦ ?_⟩
  · have hnodup := (nodup_toLower (l := l) expanded items).of_map
    refine (List.perm_ext_iff_of_nodup hnodup hgives'.owners.of_map).2 ?_
    rintro ⟨owner, body⟩
    exact mem_toLower hexpanded.1 hgives'
  · rw [← anonymous_eq_empty hexpanded.1 hold]
    exact hall.compiled
  · rw [hbare]
    exact hgives'.callables owner
  · have hnew : expanded.scopes.size ≤ id := by
      rcases Nat.lt_or_ge id expanded.scopes.size with hlt | hge
      · rw [hall.ext.scopes id hlt] at hs
        exact absurd hd (Nat.ne_of_lt (hold id s hs))
      · exact hge
    obtain ⟨howner, c, hc, hbody⟩ := hall.roots id s hs hparent hnew
    obtain ⟨c', hc', hd'⟩ := (hbare _).2 (hmem howner)
    cases hc.symm.trans hc'
    exact ⟨c, hc, hd', hbody⟩
  · refine ⟨hq.2 ▸ hq.1.defines e (Table.mem_values_iff.2 ⟨name, he⟩), ?_⟩
    rw [hall.ext.names.defines] at he
    exact hgives'.defines name e he

end Layer

/-- Every layer that a session accepts is compiled. -/
theorem Session.Reachable.compiled {s s' : Session} {source : String} {depth : Nat}
    (hs : s.Reachable) (h : s.compileLayer source = (.ok depth, s')) :
    ∃ items, ReadsAs source items ∧ (s.nextLayer source).Compiled items s'.program := by
  obtain ⟨-, -, items, hitems, hcompile⟩ := compileLayer_ok h
  exact ⟨items, hitems, Layer.compiled_of_compile hs.sound rfl (fun _ hd ↦ hitems.ordered.isWord hd)
    hcompile⟩

end CharacterScript
