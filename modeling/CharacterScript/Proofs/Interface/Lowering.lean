import CharacterScript.Proofs.Interface.Expanding
import CharacterScript.Proofs.Lowering.SideBySide

/-!
# Lowering a body in two programs

Code is lowered twice, from two programs that a layer cannot tell apart. The places of the two runs
differ: scopes have other ids, because the arenas had other lengths before. No instruction mentions
an id of a scope, only places in the pool of the layer and slots of variables, and these are the
same. So the runs stay `Layer.Twin`: each has added scopes that are equal but for the ids of their
parents.

## An instance of a comparison

That two runs of the same code go in step is proved once for all comparisons (`StmtsMove.holds`).
What is said here is what that needs to know of this one: works that are twins stay so when
something is pushed, names mean the same, a definition is put in with the same text and tree, and
blocks can be opened and closed. Nothing in the code differs, so the motion is the one in which
nothing moves, `Motion.still`.
-/

namespace CharacterScript

open Running

/-! ## Places and states of two runs

The scopes that were added are kept as lists, and the arenas are the two programs grown by them.
So it never has to be said how ids correspond. -/

/-- Places of a layer that differ only in ids of scopes and in where parameters were declared. -/
structure Env.Like (l : Layer) (env env' : Env) : Prop where
  /-- The first is a place of the layer. -/
  left : env.layer = l
  /-- So is the second. -/
  right : env'.layer = l
  /-- The code is part of the same callable. -/
  owner : env.owner = env'.owner
  /-- The scope being filled is nested as deep. -/
  level : env.level = env'.level
  /-- The parameters have the same names. -/
  params : env.params.map (·.name) = env'.params.map (·.name)
  /-- The variables of the enclosing scopes have the same names. -/
  outer : env.outer.map (·.name) = env'.outer.map (·.name)

namespace Layer

/-- Programs that the bodies of a layer can be lowered in, with the same outcome. -/
structure Ground (l : Layer) (p q : Program) : Prop extends l.SameTables p q where
  /-- What the definitions are expanded to is the same. -/
  expansions : l.SameDefines p.defines q.defines
  /-- Layers count from one. -/
  depth_pos : 0 < l.depth
  /-- The first program has a pool for the layer. -/
  left : l.depth ≤ p.pools.size
  /-- So has the second. -/
  right : l.depth ≤ q.pools.size
  /-- The next block gets the same place in both pools. -/
  pools : (p.anonymous l.depth).size = (q.anonymous l.depth).size

/-- Two runs that started from `p` and `q` and have added the same scopes. -/
structure Twin (l : Layer) (p q : Program) (w w' : Work) : Prop where
  /-- The new scopes differ only in the ids of their parents. -/
  programs : ∃ new new', w.program = p.grow l.depth new ∧ w'.program = q.grow l.depth new' ∧
    new.map Scope.unlinked = new'.map Scope.unlinked
  /-- So do the scopes being filled. -/
  scope : w.scope.unlinked = w'.scope.unlinked

end Layer

namespace Layer.Twin

variable {l : Layer} {p q : Program} {w w' : Work} {env env' : Env}

theorem vars (h : l.Twin p q w w') : w.scope.vars = w'.scope.vars :=
  (Scope.mk.inj h.scope).2.2.2.2.1

theorem numbers (h : l.Twin p q w w') : w.scope.numbers = w'.scope.numbers :=
  (Scope.mk.inj h.scope).2.2.2.2.2.2.1

theorem strings (h : l.Twin p q w w') : w.scope.strings = w'.scope.strings :=
  (Scope.mk.inj h.scope).2.2.2.2.2.2.2

/-- The scope being filled is changed in the same way. -/
theorem modify_scope {g : Scope → Scope} (hg : ∀ s, (g s).unlinked = g s.unlinked)
    (h : l.Twin p q w w') :
    l.Twin p q { w with scope := g w.scope } { w' with scope := g w'.scope } :=
  ⟨h.programs, by rw [hg, h.scope, hg]⟩

theorem ground (h : l.Twin p q w w') (hpq : l.Ground p q) : l.Ground w.program w'.program := by
  obtain ⟨new, new', hw, hw', hnew⟩ := h.programs
  have hlength : new.length = new'.length := by simpa using congrArg List.length hnew
  rw [hw, hw']
  refine { hpq with left := ?_, right := ?_, pools := ?_ }
  · simpa [Program.grow] using hpq.left
  · simpa [Program.grow] using hpq.right
  · rw [Program.anonymous_grow p l.depth new hpq.depth_pos hpq.left,
      Program.anonymous_grow q l.depth new' hpq.depth_pos hpq.right]
    simp [hpq.pools, hlength]

end Layer.Twin

/-! ## Questions have the same answers -/

/-- A text with one definition put in, if that is seen from the offset. -/
def Layer.DefineView.putInto (offset : Nat) (text : String) (view : DefineView) : String :=
  match view.expansion with
  | some e =>
    if view.visibleFrom offset && containsWord text view.name then replaceWord text view.name e.text
    else text
  | none => text

/-- What a calculation is depends on what is seen of the definitions. -/
theorem Site.substituted_eq (env : Env) (w : Work) (text : String) (offset : Nat) :
    substituted env w text offset
      = (w.program.defines.values.map env.layer.viewDefine).foldl
          (Layer.DefineView.putInto offset) text := by
  rw [List.foldl_map]
  rfl

namespace Env.Like

variable {l : Layer} {w w' : Work} {env env' : Env}
variable (henv : Env.Like l env env') (hvars : w.scope.vars = w'.scope.vars)
variable (h : l.Ground w.program w'.program)

include henv

theorem enter (vars : List Identifier) (id id' : ScopeId) :
    Env.Like l (env.enter vars id) (env'.enter vars id') where
  left := henv.left
  right := henv.right
  owner := henv.owner
  level := congrArg (· + 1) henv.level
  params := henv.params
  outer := by simp [Env.enter, henv.outer]

theorem unlinked_nested : env.nested.unlinked = env'.nested.unlinked := by
  simp [Env.nested, Scope.unlinked, henv.left, henv.right, henv.owner, henv.level]

include h

/-- The definition that a name stands for looks the same. -/
theorem define? (name : String) (offset : Nat) :
    (env.define? name offset w).map l.viewDefine
      = (env'.define? name offset w').map l.viewDefine := by
  have hfilter : ∀ x : Option Define, (x.filter (·.visibleFrom l.depth offset)).map l.viewDefine
      = (x.map l.viewDefine).filter (·.visibleFrom offset) := by
    intro x
    cases x with
    | none => rfl
    | some d =>
      simp only [Option.map_some, Option.filter_some, Layer.viewDefine]
      split <;> rfl
  rw [Env.define?, Env.define?, henv.left, henv.right, hfilter, hfilter,
    Table.get?_of_view h.expansions]

theorem substituted (text : String) (offset : Nat) :
    Site.substituted env w text offset = Site.substituted env' w' text offset := by
  rw [Site.substituted_eq, Site.substituted_eq, henv.left, henv.right,
    Table.values_of_view h.expansions]

include hvars

theorem varNames : (env.vars w).map (·.name) = (env'.vars w').map (·.name) := by
  have hglobals : w.program.globalIdents.map (·.name) = w'.program.globalIdents.map (·.name) := by
    have hnames := congrArg (List.map Layer.GlobalView.name) (Table.values_of_view h.globals)
    simpa [Program.globalIdents, Layer.viewGlobal, Function.comp_def] using hnames
  simp only [Env.vars, List.map_append, hglobals, henv.params, henv.outer, hvars]

end Env.Like

/-! ## Steps -/

theorem Layer.Twin.parallel {l : Layer} {p q : Program} : Work.Parallel (l.Twin p q) where
  numbers h := h.numbers
  strings h := h.strings
  push is numbers strings h := h.modify_scope (g := fun s ↦ { s with
    instructions := s.instructions ++ is.toArray
    numbers := s.numbers ++ numbers.toArray
    strings := s.strings ++ strings.toArray }) fun _ ↦ rfl

theorem Layer.Twin.matches_declareVar {l : Layer} {p q : Program} (ident : Identifier) :
    Matches (l.Twin p q) Eq (Lowering.declareVar ident) (Lowering.declareVar ident) :=
  .modify fun _ _ h ↦ h.modify_scope (g := fun s ↦ { s with vars := s.vars.push ident }) fun _ ↦ rfl

/-- What a view shows of callables is enough for a call. -/
theorem Layer.Ground.callAlike {l : Layer} {p q : Program} (h : l.Ground p q) : p.CallAlike q := by
  have hcalled : ∀ {c c' : Callable}, l.viewCallable c = l.viewCallable c' → c.CalledAlike c' := by
    intro c c' hview
    refine ⟨?_, congrArg Layer.CallableView.refCount hview⟩
    have hparams := congrArg (List.length ∘ Layer.CallableView.params) hview
    simpa [Layer.viewCallable] using hparams
  have hrel : ∀ {x y : Option Callable}, x.map l.viewCallable = y.map l.viewCallable →
      Option.Rel Callable.CalledAlike x y := by
    intro x y hxy
    obtain ⟨rfl, rfl⟩ | ⟨c, c', rfl, rfl, hc⟩ := both_of_map_eq hxy
    · exact .none
    · exact .some (hcalled hc)
  exact ⟨h.sameTaken, fun name ↦ hrel (Table.get?_of_view h.scripts name),
    fun name ↦ hrel (Table.get?_of_view h.functions name), hrel h.main⟩

/-! ## Names and calculations -/

/-- All stays what it is, wherever it stands. -/
abbrev Motion.still : Motion :=
  .staying (fun _ ↦ True) fun _ ↦ True

section

variable {l : Layer} {p q : Program} {env env' : Env}

theorem Env.Like.sameMeaning (henv : Env.Like l env env') (hpq : l.Ground p q) :
    Env.SameMeaning (l.Twin p q) env env' where
  vocabulary := by rw [henv.left, henv.right]
  vars h := henv.varNames h.vars (h.ground hpq)
  scriptId? h := (h.ground hpq).sameTaken.scriptId?
  callee? h := Env.callee?_congr (by rw [henv.left, henv.right]) (h.ground hpq).callAlike

/-- The comparison that this module is about. -/
abbrev Layer.twins (l : Layer) (p q : Program) : Comparison :=
  .agreeing (Layer.Twin.parallel : Work.Parallel (l.Twin p q))

theorem Env.Like.written (henv : Env.Like l env env') (hpq : l.Ground p q) :
    Site.Reads (l.twins p q) .still env' (.written env) (.written env') where
  name := by
    rintro s fromTarget span _ ⟨rfl, -⟩
    refine .get_bind fun w w' h ↦ ?_
    obtain ⟨hd, hd'⟩ | ⟨d, d', hd, hd', hview⟩ :=
      both_of_map_eq (henv.define? (h.ground hpq) s span.start)
    · rw [hd, hd']
      exact (henv.sameMeaning hpq).matches_plainName s fromTarget _ _
    · have hexpansion : d.expansion = d'.expansion := congrArg Layer.DefineView.expansion hview
      rw [hd, hd']
      dsimp only
      rw [hexpansion]
      split
      · exact .throw rfl
      · exact Expr.matches_inside Layer.Twin.parallel (henv.sameMeaning hpq) _ _ _
  calculate := by
    rintro text span _ - ⟨rfl, -⟩
    refine .get_bind fun w w' h ↦ ?_
    rw [henv.substituted (h.ground hpq)]
    exact matches_calculated _ _ _

end

/-! ## Statements

A block takes the next place of the pool in both runs. The pools had the same length from the
start. -/

section

variable {l : Layer} {p q : Program} {env env' : Env}

/-- Two scopes that were added empty are put into their places. -/
theorem Env.Like.closed (henv : Env.Like l env env') {w w' t t' : Work} (h : l.Twin p q w w')
    (hfilled : l.Twin p q t t') (ht : w.Within env t) (ht' : w'.Within env' t') :
    l.Twin p q (w.closed t) (w'.closed t') := by
  obtain ⟨new, new', hw, hw', hnew⟩ := h.programs
  obtain ⟨all, all', hall, hall', heq⟩ := hfilled.programs
  obtain ⟨more, ht⟩ := ht
  obtain ⟨more', ht'⟩ := ht'
  rw [henv.left] at ht
  rw [henv.right] at ht'
  obtain rfl : all = new ++ env.nested :: more := by
    refine p.grow_inj l.depth _ _ ?_
    rw [← hall, ht, hw, Program.grow_grow]
  obtain rfl : all' = new' ++ env'.nested :: more' := by
    refine q.grow_inj l.depth _ _ ?_
    rw [← hall', ht', hw', Program.grow_grow]
  -- what was added behind the empty scopes is the same
  have hmore : more.map Scope.unlinked = more'.map Scope.unlinked := by
    simp only [List.map_append, List.map_cons, hnew] at heq
    exact (List.cons.inj (List.append_cancel_left heq)).2
  refine ⟨⟨new ++ t.scope :: more, new' ++ t'.scope :: more', ?_, ?_, ?_⟩, h.scope⟩
  · rw [Work.closed]
    dsimp only
    rw [ht, Program.set_grow_cons, hw, Program.grow_grow]
  · rw [Work.closed]
    dsimp only
    rw [ht', Program.set_grow_cons, hw', Program.grow_grow]
  · simp only [List.map_append, List.map_cons, hnew, hfilled.scope, hmore]

theorem Env.Like.opened (henv : Env.Like l env env') {w w' : Work} (h : l.Twin p q w w') :
    l.Twin p q (w.opened env) (w'.opened env') := by
  obtain ⟨new, new', hw, hw', hnew⟩ := h.programs
  refine ⟨⟨new ++ [env.nested], new' ++ [env'.nested], ?_, ?_, ?_⟩, henv.unlinked_nested⟩
  · rw [Work.opened, henv.left, hw, Program.grow_grow]
  · rw [Work.opened, henv.right, hw', Program.grow_grow]
  · simp [hnew, henv.unlinked_nested]

/-- Statements are lowered alike in two programs that the layer cannot tell apart. The two scopes of
a block may get different ids, but they take the same place in the pool. -/
theorem Layer.Ground.along (hpq : l.Ground p q) : (l.twins p q).Along .still (Env.Like l) where
  names henv := henv.sameMeaning hpq
  reads henv := henv.written hpq
  declares := by
    rintro env env' span _ henv ⟨rfl, -⟩ name value
    refine .of_matches ((henv.sameMeaning hpq).matches_lowerLet Layer.Twin.parallel
      (fun h ↦ ?_) ?_ _)
    · exact Env.isSome_taken?_congr (henv.varNames h.vars (h.ground hpq))
        (Layer.isSome_of_view (henv.define? (h.ground hpq) name span.start))
          (h.ground hpq).sameTaken
    · rw [henv.left, henv.right]
      exact Layer.Twin.matches_declareVar _
  pools henv h := by
    rw [henv.left, henv.right]
    exact (h.ground hpq).pools
  opened henv h := henv.opened h
  enter henv h := by
    rw [h.vars]
    exact henv.enter _ _ _
  closed henv h ht hin hin' := henv.closed h ht hin hin'

theorem matches_lowerStmts (hpq : l.Ground p q) (ss : List Stmt) (henv : Env.Like l env env') :
    Matches (l.Twin p q) Eq (lowerStmts env ss) (lowerStmts env' ss) :=
  (stmtsMove_self ss (fun _ _ ↦ Motion.keeps_staying trivial) fun _ _ ↦ trivial).holds
    hpq.along henv

end

end CharacterScript
