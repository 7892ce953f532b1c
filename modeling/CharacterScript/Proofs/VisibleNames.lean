import CharacterScript.Proofs.TopLevel

/-!
# The names in sight inside a body

At every point of a body some names are variables: the globals, the parameters, and what has been
declared by then in the blocks around the point. `CallableDecl.views` lists them point by point.
A variable is looked up from the front of such a list, and a call in other tables still, so names
mean one thing only if no name is in the list twice and none is also a function or a script:
`Program.TellsApart`.

## When names are compared

A variable of a block is compared with everything that is in sight or declared when it is met, and
by then everything is declared. A parameter is met earlier, while the items are still being
declared. It is compared with the items before its callable and with nothing later, not even with
the name of the callable itself. So names are told apart in all of a body exactly if no such later
name is that of a parameter, and `visible_names_distinct_iff` says this.

## Points

A body is a tree of statements, and a point of it is a place in front of a statement or at the end
of a block. What is in sight there is computed from the tree, and it is what lowering has in hand
when it gets there. So a fact about lists of names at all points is a fact about what lowering
compared.
-/

namespace CharacterScript

open Running

/-! ## Points of a body

Each block adds its names behind those around it, and takes them away at its end. -/

/-- The names that a statement adds to its own block. -/
def Stmt.newNames : Stmt → List String
  | .let_ name _ _ _ => [name]
  | _ => []

theorem Stmt.map_name_declared (l : Layer) (stmt : Stmt) :
    (stmt.declared l).map (·.name) = stmt.newNames := by
  cases stmt <;> rfl

mutual

/-- The names in sight at each point inside a statement, if these are in sight before it. -/
def Stmt.views (names : List String) : Stmt → List (List String)
  | .loop body _ => body.views names
  | .if_ _ body rest _ => body.views names ++ rest.views names
  | _ => []

/-- Those in sight before each of the statements, inside them, and behind the last one. -/
def stmtViews (names : List String) : List Stmt → List (List String)
  | [] => [names]
  | s :: rest => names :: (s.views names ++ stmtViews (names ++ s.newNames) rest)

def Block.views (names : List String) : Block → List (List String)
  | .mk stmts _ => stmtViews names stmts

def Branches.views (names : List String) : Branches → List (List String)
  | .done => []
  | .else_ body => body.views names
  | .elif _ body rest => body.views names ++ rest.views names

end

theorem mem_stmtViews_self (names : List String) (stmts : List Stmt) :
    names ∈ stmtViews names stmts := by
  cases stmts with
  | nil => exact List.mem_singleton_self names
  | cons => exact List.mem_cons_self

namespace CallableDecl

def paramNames (d : CallableDecl) : List String :=
  d.params.map (·.name)

/-- The names in sight at each point of the body of a callable of the program. -/
def views (d : CallableDecl) (p : Program) : List (List String) :=
  stmtViews (p.globals.names ++ d.paramNames) d.body.stmts

end CallableDecl

/-- No two of the names are equal, and none is that of a function or a script. -/
structure Program.TellsApart (p : Program) (names : List String) : Prop where
  /-- No name comes twice. -/
  nodup : names.Nodup
  /-- None of the names can be called. -/
  not_called : ∀ name ∈ names, name ∉ p.namesOf .function ∧ name ∉ p.namesOf .script

namespace Program.TellsApart

variable {p q : Program} {names : List String} {name : String}

theorem congr (h : p.TellsApart names) (hq : ∀ kind, q.namesOf kind = p.namesOf kind) :
    q.TellsApart names := by
  refine ⟨h.nodup, ?_⟩
  rw [hq, hq]
  exact h.not_called

/-- A name is added that nothing else has but perhaps a definition. -/
theorem concat (h : p.TellsApart names) (hnew : name ∉ names)
    (hfree : p.declared? name (some .define) = none) : p.TellsApart (names ++ [name]) := by
  refine ⟨List.concat_eq_append ▸ h.nodup.concat hnew, fun other hother ↦ ?_⟩
  rcases List.mem_append.1 hother with hold | hself
  · exact h.not_called other hold
  · obtain rfl := List.mem_singleton.1 hself
    rw [declared?_eq_none_iff] at hfree
    exact ⟨hfree .function (by decide), hfree .script (by decide)⟩

end Program.TellsApart

/-! ## Bodies

Lowering compares a new variable with all names in sight at its place. What has been compared
stays apart while the block goes on. -/

/-- The names of the variables in sight. -/
def Env.names (env : Env) (w : Work) : List String :=
  (env.vars w).map (·.name)

theorem lowerLet_taken? {env : Env} {name : String} {nameSpan : Span} {value : Operand}
    {w w' : Work}
    (h : lowerLet env name nameSpan value w = .ok () w') :
      env.taken? name nameSpan.start w = none := by
  rw [lowerLet, get_bind] at h
  cases htaken : env.taken? name nameSpan.start w with
  | none => rfl
  | some other =>
    simp only [htaken] at h
    exact absurd h throw_ne_ok

theorem lowerLet_free {env : Env} {name : String} {nameSpan : Span} {value : Operand} {w w' : Work}
    (h : lowerLet env name nameSpan value w = .ok () w') :
    name ∉ env.names w ∧ w.program.declared? name (some .define) = none := by
  have htaken := lowerLet_taken? h
  refine ⟨fun hmem ↦ ?_, (Option.or_eq_none_iff.1 htaken).2⟩
  obtain ⟨i, hi, hname⟩ := List.mem_map.1 hmem
  exact (Env.taken?_eq_none htaken).1 i hi hname

namespace Ran

variable {env : Env} {w w' : Work} {decls : List Identifier} {is : List Instruction} {m : Nat}
  {C : Program → Scope → Prop}

theorem names (h : Ran env w w' decls is m C) :
    env.names w' = env.names w ++ decls.map (·.name) := by
  rw [Env.names, h.visible, List.map_append]
  rfl

theorem namesOf (h : Ran env w w' decls is m C) (kind : Program.Kind) :
    w'.program.namesOf kind = w.program.namesOf kind := by
  obtain ⟨new, hgrow, -⟩ := h.grown
  rw [hgrow]
  exact (Program.SameNames.grow w.program env.layer.depth new).namesOf kind

/-- What holds of the names in sight behind some work, if they are told apart there, holds before it
too: the work has changed no table. -/
theorem tellsApart {V : List String → List (List String)} (h : Ran env w w' decls is m C)
    (hw : w.program.TellsApart (env.names w ++ decls.map (·.name)))
    (hviews : w'.program.TellsApart (env.names w') →
      ∀ names ∈ V (env.names w'), w'.program.TellsApart names) :
    ∀ names ∈ V (env.names w ++ decls.map (·.name)), w.program.TellsApart names := by
  rw [← h.names] at hw ⊢
  exact fun names hnames ↦ (hviews (hw.congr h.namesOf) names hnames).congr fun kind ↦
    (h.namesOf kind).symm

end Ran

/-- What a block is lowered to comes from running its statements inside. -/
theorem Block.lower_stmts {stmts : List Stmt} {span : Span} {env : Env} {w w' : Work}
    {word : UInt16} (h : (Block.mk stmts span).lower env w = .ok word w') :
    ∃ t, lowerStmts (env.enter w.scope.vars.toList w.program.scopes.size) stmts
      ⟨w.program.grow env.layer.depth [env.nested], env.nested⟩ = .ok () t := by
  rw [Block.lower_apply] at h
  cases hword : word? (w.program.anonymous env.layer.depth).size with
  | none =>
    simp only [hword] at h
    contradiction
  | some place =>
    simp only [hword] at h
    split at h
    · contradiction
    next t hfill =>
      obtain ⟨⟨⟩, t₁, hrun, -⟩ := bind_eq_ok.1 hfill
      exact ⟨t₁, hrun⟩

/-- What a statement adds is told apart from all that was there. -/
theorem Stmt.tellsApart_newNames {stmt : Stmt} {env : Env} {w w' : Work}
    (h : stmt.lower env w = .ok () w') (hw : w.program.TellsApart (env.names w)) :
    w.program.TellsApart (env.names w ++ stmt.newNames) := by
  cases stmt with
  | let_ name nameSpan value span =>
    obtain ⟨o, t, hvalue, hlet⟩ := bind_eq_ok.1 h
    obtain ⟨hnew, hfree⟩ := lowerLet_free hlet
    -- lowering the value has declared nothing
    have hran := Ran.expr hvalue
    rw [hran.names, List.map_nil, List.append_nil] at hnew
    obtain ⟨new, hgrow, -⟩ := hran.grown
    rw [hgrow] at hfree
    exact hw.concat hnew hfree
  | break_ | call | assign | return_ | loop | if_ | lone =>
    dsimp only [Stmt.newNames]
    rw [List.append_nil]
    exact hw

mutual

theorem Stmt.tellsApart_views : ∀ (stmt : Stmt) {env : Env} {w w' : Work}, env.Fits w →
    stmt.lower env w = .ok () w' → w.program.TellsApart (env.names w) →
      ∀ names ∈ stmt.views (env.names w), w.program.TellsApart names
  | .loop body _, env, w, w', hfits, h, hw => by
    rw [Stmt.lower] at h
    obtain ⟨word, t, hbody, -⟩ := bind_eq_ok.1 h
    exact body.tellsApart_views hfits hbody hw
  | .if_ cond body rest _, env, w, w', hfits, h, hw => by
    rw [Stmt.lower] at h
    obtain ⟨o, t, hcond, h₁⟩ := bind_eq_ok.1 h
    obtain ⟨word, t₁, hbody, h₂⟩ := bind_eq_ok.1 h₁
    obtain ⟨os, t₂, hrest, -⟩ := bind_eq_ok.1 h₂
    have hran := Ran.expr hcond
    have hboth := hran.trans (body.ran_lower (hran.fits hfits) hbody) hfits
    rw [← List.append_nil (env.names w)] at hw ⊢
    refine List.forall_mem_append.2
      ⟨hran.tellsApart (V := fun names ↦ body.views names) hw
          (body.tellsApart_views (hran.fits hfits) hbody),
        hboth.tellsApart (V := fun names ↦ rest.views names) hw
          (rest.tellsApart_views (hboth.fits hfits) hrest)⟩
  | .break_ _, _, _, _, _, _, _ => nofun
  | .call _, _, _, _, _, _, _ => nofun
  | .let_ _ _ _ _, _, _, _, _, _, _ => nofun
  | .assign _ _ _ _ _, _, _, _, _, _, _ => nofun
  | .return_ _ _, _, _, _, _, _, _ => nofun
  | .lone _ _, _, _, _, _, _, _ => nofun

theorem tellsApart_stmtViews : ∀ (stmts : List Stmt) {env : Env} {w w' : Work}, env.Fits w →
    lowerStmts env stmts w = .ok () w' → w.program.TellsApart (env.names w) →
      ∀ names ∈ stmtViews (env.names w) stmts, w.program.TellsApart names
  | [], env, w, w', hfits, h, hw => List.forall_mem_singleton.2 hw
  | stmt :: rest, env, w, w', hfits, h, hw => by
    rw [lowerStmts] at h
    obtain ⟨⟨⟩, t, hstmt, hrest⟩ := bind_eq_ok.1 h
    obtain ⟨is, hran⟩ := stmt.ran_lower hfits hstmt
    have hnew := stmt.tellsApart_newNames hstmt hw
    rw [← stmt.map_name_declared env.layer] at hnew
    refine List.forall_mem_cons.2 ⟨hw, List.forall_mem_append.2
      ⟨stmt.tellsApart_views hfits hstmt hw, ?_⟩⟩
    rw [← stmt.map_name_declared env.layer]
    exact hran.tellsApart (V := fun names ↦ stmtViews names rest) hnew
      (tellsApart_stmtViews rest (hran.fits hfits) hrest)

theorem Block.tellsApart_views : ∀ (b : Block) {env : Env} {w w' : Work} {word : UInt16},
    env.Fits w → b.lower env w = .ok word w' → w.program.TellsApart (env.names w) →
      ∀ names ∈ b.views (env.names w), w.program.TellsApart names
  | .mk stmts span, env, w, w', word, hfits, h, hw => by
    obtain ⟨t, hrun⟩ := Block.lower_stmts h
    have hviews := tellsApart_stmtViews stmts (Env.enter_fits hfits) hrun
    -- inside the block the same names are in sight, and the tables are the same
    rw [Env.names, Env.enter_vars] at hviews
    have hsame := Program.SameNames.grow w.program env.layer.depth [env.nested]
    exact fun names hnames ↦
      (hviews (hw.congr hsame.namesOf) names hnames).congr fun kind ↦ (hsame.namesOf kind).symm

theorem Branches.tellsApart_views : ∀ (b : Branches) {env : Env} {done os : List Operand}
    {w w' : Work}, env.Fits w → b.lower env done w = .ok os w' →
      w.program.TellsApart (env.names w) →
        ∀ names ∈ b.views (env.names w), w.program.TellsApart names
  | .done, _, _, _, _, _, _, _, _ => nofun
  | .else_ body, env, done, os, w, w', hfits, h, hw => by
    rw [Branches.lower] at h
    obtain ⟨word, t, hbody, -⟩ := bind_eq_ok.1 h
    exact body.tellsApart_views hfits hbody hw
  | .elif cond body rest, env, done, os, w, w', hfits, h, hw => by
    rw [Branches.lower] at h
    obtain ⟨o, t, hcond, h₁⟩ := bind_eq_ok.1 h
    obtain ⟨word, t₁, hbody, hrest⟩ := bind_eq_ok.1 h₁
    have hran := Ran.expr hcond
    have hboth := hran.trans (body.ran_lower (hran.fits hfits) hbody) hfits
    rw [← List.append_nil (env.names w)] at hw ⊢
    exact List.forall_mem_append.2
      ⟨hran.tellsApart (V := fun names ↦ body.views names) hw
          (body.tellsApart_views (hran.fits hfits) hbody),
        hboth.tellsApart (V := fun names ↦ rest.views names) hw
          (rest.tellsApart_views (hboth.fits hfits) hrest)⟩

end

/-! ## Declarations -/

namespace Layer

variable {l : Layer} {p q : Program} {name : String} {kind : Program.Kind}

/-- Parameters are different from each other and from all that is declared by then. -/
theorem newParams_eq_ok {params : List Param} : ∀ {done ids : List Identifier},
    l.newParams p done params = .ok ids → (done.reverse.map (·.name)).Nodup →
      ids.map (·.name) = done.reverse.map (·.name) ++ params.map (·.name) ∧
        (ids.map (·.name)).Nodup ∧ ∀ param ∈ params, p.declared? param.name none = none := by
  induction params with
  | nil =>
    intro done ids h hdone
    rw [newParams] at h
    cases h
    exact ⟨(List.append_nil _).symm, hdone, List.forall_mem_nil _⟩
  | cons param rest ih =>
    intro done ids h hdone
    rw [newParams] at h
    split at h
    · contradiction
    next hfree =>
      rw [Option.or_eq_none_iff] at hfree
      split at h
      · contradiction
      · have hnew : param.name ∉ done.reverse.map (·.name) := fun hmem ↦ by
          obtain ⟨i, hi, hname⟩ := List.mem_map.1 hmem
          exact List.find?_eq_none.1 hfree.2 i hi (beq_iff_eq.2 hname)
        have hnext : ((⟨.arg, param.name, l.pos param.span⟩ :: done).reverse.map (·.name))
            = done.reverse.map (·.name) ++ [param.name] := by simp
        obtain ⟨hnames, hnodup, hrest⟩ := ih h
          (by rw [hnext, ← List.concat_eq_append]; exact hdone.concat hnew)
        refine ⟨?_, hnodup, List.forall_mem_cons.2 ⟨hfree.1, hrest⟩⟩
        rw [hnames, hnext, List.append_assoc]
        rfl

private theorem newCallable_params {kind : IdentKind} {d : CallableDecl} {c : Callable}
    (h : l.newCallable kind d p = .ok c) : l.newParams p [] d.params = .ok c.params := by
  obtain ⟨params, hparams, h₁⟩ := exceptBind_eq_ok.1 h
  split at h₁
  · contradiction
  · cases h₁
    exact hparams

/-- The callable that was just declared has the parameters that were checked for it. -/
theorem Declared.params {d : CallableDecl} (h : l.Declared p (.callable d) q) :
    ∃ c, q.callable? d.owner = some c ∧ c.depth = l.depth ∧
      l.newParams p [] d.params = .ok c.params := by
  cases h with
  | @main _ c hkind hname hnew =>
    refine ⟨c, ?_, (newScript_new hnew).1.depth, ?_⟩
    · rw [CallableDecl.owner_eq_main.2 ⟨hkind, hname⟩]
      rfl
    · obtain ⟨⟨⟩, -, hcallable⟩ := exceptBind_eq_ok.1 hnew
      exact newCallable_params hcallable
  | @script _ c hkind hname hnew =>
    refine ⟨c, ?_, (newScript_new hnew).1.depth, ?_⟩
    · rw [CallableDecl.owner_eq_script.2 ⟨hkind, rfl, hname⟩]
      exact Table.get?_insert_self _ _ _
    · obtain ⟨⟨⟩, -, hcallable⟩ := exceptBind_eq_ok.1 hnew
      exact newCallable_params hcallable
  | @function _ c hkind hnew =>
    refine ⟨c, ?_, (newFunction_new hnew).1.depth, ?_⟩
    · rw [CallableDecl.owner_eq_function.2 ⟨hkind, rfl⟩]
      exact Table.get?_insert_self _ _ _
    · rw [newFunction] at hnew
      dsimp only at hnew
      split at hnew
      · contradiction
      · obtain ⟨⟨⟩, -, hcallable⟩ := exceptBind_eq_ok.1 hnew
        exact newCallable_params hcallable

/-- Declaring takes no name away. -/
theorem Declared.namesOf_subset {i : Item} (hp : p.Named) (h : l.Declared p i q)
    (hname : name ∈ p.namesOf kind) : name ∈ q.namesOf kind := by
  cases h with
  | directive | seen => exact hname
  | global =>
    cases kind with
    | global => exact Table.mem_names_insert.2 (.inl hname)
    | function | script | define => exact hname
  | define =>
    cases kind with
    | define => exact Table.mem_names_insert.2 (.inl hname)
    | global | function | script => exact hname
  | @main d c _ hmain hnew =>
    cases kind with
    | script =>
      rcases List.mem_append.1 hname with hscript | hold
      · exact List.mem_append_left _ hscript
      -- the script that is replaced had the same name
      · obtain ⟨old, hmem, rfl⟩ := List.mem_map.1 hold
        have hc : c.ident.name = mainName := (newScript_new hnew).1.name.trans hmain
        have hnamed := hp.callables (Option.mem_toList.1 hmem : p.callable? .main = some old)
        exact List.mem_append_right _ (List.mem_singleton.2 (hnamed.trans hc.symm))
    | global | function | define => exact hname
  | script =>
    cases kind with
    | script =>
      rcases List.mem_append.1 hname with hscript | hmain
      · exact List.mem_append_left _ (Table.mem_names_insert.2 (.inl hscript))
      · exact List.mem_append_right _ hmain
    | global | function | define => exact hname
  | function =>
    cases kind with
    | function => exact Table.mem_names_insert.2 (.inl hname)
    | global | script | define => exact hname

private theorem newGlobal_eq_none {span : Span} (h : l.newGlobal name span p = .ok none) :
    name ∈ p.globals.names := by
  obtain ⟨⟨⟩, -, h₁⟩ := exceptBind_eq_ok.1 h
  cases hget : p.globals.get? name with
  | none =>
    rw [hget] at h₁
    cases h₁
  | some g => exact Table.mem_names_iff.2 ⟨g, hget⟩

/-- What an item declares is there afterwards. -/
theorem mem_namesOf_of_declares {i : Item} (h : l.declareItem i p = .ok () q)
    (hi : i.declares? = some (name, kind)) : name ∈ q.namesOf kind := by
  cases i with
  | directive => contradiction
  | global other span =>
    cases hi
    obtain ⟨g, t, hg, h₁⟩ := bind_eq_ok.1 h
    obtain ⟨hnew, rfl⟩ := inspect_eq_ok.1 hg
    cases g with
    | none =>
      obtain ⟨-, rfl⟩ := pure_eq_ok.1 h₁
      exact newGlobal_eq_none hnew
    | some g =>
      cases h₁
      exact Table.mem_names_insert.2 (.inr rfl)
  | define d =>
    cases hi
    cases declareItem_declared h
    exact Table.mem_names_insert.2 (.inr rfl)
  | callable d =>
    rw [Item.declares?] at hi
    cases declareItem_declared h with
    | main hkind _ hnew =>
      rw [hkind] at hi
      cases hi
      exact List.mem_append_right _ (List.mem_singleton.2 (newScript_new hnew).1.name.symm)
    | script hkind =>
      rw [hkind] at hi
      cases hi
      exact List.mem_append_left _ (Table.mem_names_insert.2 (.inr rfl))
    | function hkind =>
      rw [hkind] at hi
      cases hi
      exact Table.mem_names_insert.2 (.inr rfl)

/-- After all items were declared, the names are those from before and those of the items. -/
theorem mem_namesOf_declareAll {items : List Item} (hp : p.Named) (hdepth : p.depth = l.depth)
    (h : l.declareAll items p = .ok () q) :
    name ∈ q.namesOf kind ↔
      name ∈ p.namesOf kind ∨ ∃ i ∈ items, i.declares? = some (name, kind) := by
  induction items generalizing p with
  | nil =>
    obtain ⟨-, rfl⟩ := pure_eq_ok.1 h
    simp
  | cons i items ih =>
    obtain ⟨⟨⟩, t, hi, hrest⟩ := bind_eq_ok.1 h
    have hdeclared := declareItem_declared hi
    have ht : t.depth = p.depth := by cases hdeclared <;> rfl
    have hitem : name ∈ t.namesOf kind ↔ name ∈ p.namesOf kind ∨ i.declares? = some (name, kind) :=
      ⟨fun hname ↦ (hdeclared.mem_namesOf hname).imp_right And.left,
        fun hname ↦ hname.elim (hdeclared.namesOf_subset hp) (mem_namesOf_of_declares hi)⟩
    have hnamed := hp.step hdepth (.declare (List.mem_singleton_self i) hdeclared)
    rw [ih hnamed (ht.trans hdepth) hrest, hitem, List.exists_mem_cons_iff, or_assoc]

theorem named_declareAll {items : List Item} (hp : p.Named) (hdepth : p.depth = l.depth)
    (h : l.declareAll items p = .ok () q) : q.Named ∧ q.depth = l.depth := by
  induction items generalizing p with
  | nil =>
    obtain ⟨-, rfl⟩ := pure_eq_ok.1 h
    exact ⟨hp, hdepth⟩
  | cons i items ih =>
    obtain ⟨⟨⟩, t, hi, hrest⟩ := bind_eq_ok.1 h
    have hdeclared := declareItem_declared hi
    have ht : t.depth = p.depth := by cases hdeclared <;> rfl
    have hnamed := hp.step hdepth (.declare (List.mem_singleton_self i) hdeclared)
    exact ih hnamed (ht.trans hdepth) hrest

theorem namesApart_declareAll {items : List Item} (hp : p.NamesApart l.vocabulary)
    (h : l.declareAll items p = .ok () q) : q.NamesApart l.vocabulary := by
  induction items generalizing p with
  | nil =>
    obtain ⟨-, rfl⟩ := pure_eq_ok.1 h
    exact hp
  | cons i items ih =>
    obtain ⟨⟨⟩, t, hi, hrest⟩ := bind_eq_ok.1 h
    exact ih (hp.step (.declare (List.mem_singleton_self i) (declareItem_declared hi))) hrest

/-- A callable of this layer is not declared again by it. -/
theorem callable?_declareAll {items : List Item} {owner : Owner} {c : Callable}
    (hc : p.callable? owner = some c) (hdepth : c.depth = l.depth)
    (h : l.declareAll items p = .ok () q) : q.callable? owner = some c := by
  induction items generalizing p with
  | nil =>
    obtain ⟨-, rfl⟩ := pure_eq_ok.1 h
    exact hc
  | cons i items ih =>
    obtain ⟨⟨⟩, t, hi, hrest⟩ := bind_eq_ok.1 h
    refine ih ?_ hrest
    have hdeclared := declareItem_declared hi
    rcases hdeclared.callable?_cases owner with heq | ⟨d, -, rfl, rfl, -⟩
    · exact heq.trans hc
    · exact absurd hdepth (hdeclared.callable.1 c hc)

/-- Declaring a list of items, up to one of them and from there on. -/
theorem declareAll_split {before after : List Item} {i : Item}
    (h : l.declareAll (before ++ i :: after) p = .ok () q) :
    ∃ t, l.declareAll before p = .ok () t ∧ l.declareAll (i :: after) t = .ok () q := by
  induction before generalizing p with
  | nil => exact ⟨p, rfl, h⟩
  | cons j before ih =>
    obtain ⟨⟨⟩, t, hj, hrest⟩ := bind_eq_ok.1 h
    obtain ⟨t', hbefore, hafter⟩ := ih hrest
    exact ⟨t', (bind_of_ok hj).trans hbefore, hafter⟩

end Layer

/-! ## Layers

At the start of a body there are the globals and the parameters. These were compared while the
items were declared, and not with everything. -/

namespace Program

variable {p q : Program}

/-- The names in sight at the start of the body of a callable. -/
def bodyNames (p : Program) (owner : Owner) : List String :=
  (p.globalIdents ++ ((p.callable? owner).map (·.params)).getD []).map (·.name)

theorem SameNames.bodyNames (h : p.SameNames q) (owner : Owner) :
    q.bodyNames owner = p.bodyNames owner := by
  have hparams := congrArg (Option.map Callable.params) (h.callable? owner)
  rw [Option.map_map, Option.map_map] at hparams
  rw [Program.bodyNames, Program.bodyNames, h.globalIdents]
  exact congrArg (fun params ↦ (p.globalIdents ++ params.getD []).map Identifier.name) hparams

theorem Named.bodyNames (h : p.Named) {owner : Owner} {c : Callable}
    (hc : p.callable? owner = some c) :
    p.bodyNames owner = p.globals.names ++ c.params.map (·.name) := by
  have hglobals : p.globalIdents.map (·.name) = p.globals.names := by
    rw [globalIdents, Table.values, List.map_map, List.map_map, Table.names]
    exact List.map_congr_left fun e he ↦ (h.globals (Table.mem_toList_iff_get?.1 he)).1
  rw [Program.bodyNames, hc, List.map_append, hglobals]
  rfl

end Program

namespace Layer

variable {l : Layer} {p q : Program}

/-- A body that was lowered and set changes no table. -/
theorem sameNames_lowerBody {owner : Owner} {body : Block} {id : ScopeId}
    (h : lowerBody l owner body p = .ok id q) :
    p.SameNames (q.setBody owner id) ∧ (q.setBody owner id).pools.size = p.pools.size := by
  obtain ⟨root, new, hafter, -⟩ := after_lowerBody l owner body p
  rw [after_of_ok h] at hafter
  have hext : q.Extends l.depth (q.setBody owner id) := Program.extends_setBody
  refine ⟨.trans ?_ hext.names, ?_⟩
  · rw [hafter]
    exact ⟨rfl, rfl, rfl, rfl, rfl⟩
  · rw [Program.setBody_pools, hafter]
    exact Array.size_modify

/-- Each body of a layer is lowered in a program that has the names of the one at the end. -/
theorem lowerAll_runs {bodies : List (Owner × Block)} (hle : l.depth ≤ p.pools.size)
    (h : l.lowerAll bodies p = .ok () q) :
    p.SameNames q ∧ ∀ owner body, (owner, body) ∈ bodies →
      ∃ r id r', p.SameNames r ∧ l.depth ≤ r.pools.size ∧ lowerBody l owner body r = .ok id r' := by
  induction bodies generalizing p with
  | nil =>
    obtain ⟨-, rfl⟩ := pure_eq_ok.1 h
    exact ⟨.refl, nofun⟩
  | cons entry rest ih =>
    obtain ⟨owner, body⟩ := entry
    rw [lowerAll] at h
    obtain ⟨id, p₁, hbody, h₁⟩ := bind_eq_ok.1 h
    rw [modify_bind] at h₁
    obtain ⟨hnext, hpools⟩ := sameNames_lowerBody hbody
    obtain ⟨hnames, hrest⟩ := ih (hpools ▸ hle) h₁
    refine ⟨hnext.trans hnames, fun other b hmem ↦ ?_⟩
    rcases List.mem_cons.1 hmem with heq | hmem
    · cases heq
      exact ⟨p, id, p₁, .refl, hle, hbody⟩
    · obtain ⟨r, id', r', hr, hrun⟩ := hrest other b hmem
      exact ⟨r, id', r', hnext.trans hr, hrun⟩

/-- In a body that is lowered, names that are told apart at its start are so all over it. -/
theorem tellsApart_lowerBody {owner : Owner} {body : Block} {id : ScopeId} (hpos : 0 < l.depth)
    (hle : l.depth ≤ p.pools.size) (h : lowerBody l owner body p = .ok id q)
    (hstart : p.TellsApart (p.bodyNames owner)) :
    ∀ names ∈ stmtViews (p.bodyNames owner) body.stmts, p.TellsApart names := by
  rw [lowerBody_apply] at h
  cases hrun : lowerStmts (Env.body l owner p) body.stmts
      ⟨p.addRoot (.root l.depth owner), .root l.depth owner⟩ with
  | error e t =>
    rw [hrun] at h
    contradiction
  | ok u t =>
    have hfits := Env.body_fits hpos hle owner
    have hnames : (Env.body l owner p).names ⟨p.addRoot (.root l.depth owner), .root l.depth owner⟩
        = p.bodyNames owner := by
      show (p.globalIdents ++ _ ++ [] ++ []).map _ = _
      rw [List.append_nil, List.append_nil]
      rfl
    have hviews := tellsApart_stmtViews body.stmts hfits hrun
    rw [hnames] at hviews
    -- the scope that is added for the body changes no table
    have hsame : p.SameNames (p.addRoot (.root l.depth owner)) := ⟨rfl, rfl, rfl, rfl, rfl⟩
    exact fun names hmem ↦
      (hviews (hstart.congr hsame.namesOf) names hmem).congr fun kind ↦ (hsame.namesOf kind).symm

/-- In a layer that compiles, the names are those that declaring left, and each body is lowered in a
program that has them. -/
theorem compile_runs {items : List Item} (hp : p.Sound) (hdepth : l.depth = p.depth + 1)
    (hword : ∀ d, .callable d ∈ items → IsWord d.name)
    (h : l.compile items (Session.deepen p) = .ok () q) :
    ∃ declared r : Program, l.declareAll items (Session.deepen p) = .ok () declared ∧
      (∀ kind, r.namesOf kind = declared.namesOf kind) ∧
      (∀ owner, r.callable? owner = declared.callable? owner) ∧ r.SameNames q ∧
      ∀ d, .callable d ∈ items → ∃ t id t', r.SameNames t ∧ l.depth ≤ t.pools.size ∧
        lowerBody l d.owner d.body t = .ok id t' := by
  obtain ⟨declared, defines, hdeclared, hdefines, hlower⟩ := compile_stages h
  have htexts : Expansion.SameTexts declared.defines defines :=
    after_of_ok hdefines ▸ Expansion.sameTexts_expandAll declared.defines
  have hsame : ∀ owner,
      (l.expanded items declared defines).callable? owner = declared.callable? owner := by
    rintro (_ | _ | _) <;> rfl
  obtain ⟨hexpanded, hdepth', hgives⟩ := gives_expanded hp hdepth hword hdeclared hdefines
  have hle : l.depth ≤ (l.expanded items declared defines).pools.size :=
    (hexpanded.pools.trans hdepth').ge
  obtain ⟨hnames, hruns⟩ := lowerAll_runs hle hlower
  refine ⟨declared, _, hdeclared, Program.namesOf_of_sameTexts htexts, hsame, hnames,
    fun d hd ↦ hruns _ _ ?_⟩
  exact (mem_toLower hexpanded hgives).2 (mem_bodiesOf.2 ⟨d, hd, rfl, rfl⟩)

/-- A parameter is declared in the end only by its callable or by an item behind it. -/
theorem paramNames_declareAll {before later : List Item} {d : CallableDecl} (hp : p.Named)
    (hdepth : p.depth = l.depth) (h : l.declareAll (before ++ .callable d :: later) p = .ok () q) :
    d.paramNames.Nodup ∧
      (∃ c, q.callable? d.owner = some c ∧ c.params.map (·.name) = d.paramNames) ∧
      ∀ name ∈ d.paramNames, ∀ kind, name ∈ q.namesOf kind ↔
        ∃ i ∈ .callable d :: later, i.declares? = some (name, kind) := by
  obtain ⟨t, hbefore, hlater⟩ := declareAll_split h
  obtain ⟨ht, htdepth⟩ := named_declareAll hp hdepth hbefore
  have hall : ∀ {name kind}, name ∈ q.namesOf kind ↔ name ∈ t.namesOf kind ∨
      ∃ i ∈ .callable d :: later, i.declares? = some (name, kind) :=
    mem_namesOf_declareAll ht htdepth hlater
  obtain ⟨⟨⟩, t₁, hitem, hrest⟩ := bind_eq_ok.1 hlater
  obtain ⟨c, hc, hcdepth, hparams⟩ := (declareItem_declared hitem).params
  obtain ⟨hnames, hnodup, hfree⟩ := newParams_eq_ok hparams List.nodup_nil
  rw [List.reverse_nil, List.map_nil, List.nil_append] at hnames
  have hparamNames : c.params.map (·.name) = d.paramNames := hnames
  refine ⟨hparamNames ▸ hnodup, ⟨c, callable?_declareAll hc hcdepth hrest, hnames⟩,
    fun name hname kind ↦ ?_⟩
  obtain ⟨param, hparam, rfl⟩ := List.mem_map.1 hname
  -- no item before the callable has the name
  have hnone : param.name ∉ t.namesOf kind :=
    Program.declared?_eq_none_iff.1 (hfree param hparam) kind nofun
  rw [hall]
  exact or_iff_right hnone

end Layer

/-- The callable itself, or an item behind it, gives this name to something that is not a
definition. -/
def CallableDecl.NamedLater (d : CallableDecl) (later : List Item) (name : String) : Prop :=
  ∃ i ∈ .callable d :: later, ∃ kind, kind ≠ .define ∧ i.declares? = some (name, kind)

/-- With the globals, other names are told apart if they are different and neither a global nor a
function nor a script has one of them. -/
theorem Program.NamesApart.tellsApart_iff {p : Program} {v : Vocabulary} (h : p.NamesApart v)
    {names : List String} (hnames : names.Nodup) :
    p.TellsApart (p.globals.names ++ names) ↔
      ∀ name ∈ names, ∀ kind ≠ .define, name ∉ p.namesOf kind := by
  constructor
  · intro htells name hname kind hkind
    have hcalled := htells.not_called name (List.mem_append_right _ hname)
    cases kind with
    | global => exact fun hglobal ↦ List.disjoint_of_nodup_append htells.nodup hglobal hname
    | function => exact hcalled.1
    | script => exact hcalled.2
    | define => contradiction
  · intro hfree
    refine ⟨List.nodup_append.2 ⟨p.globals.nodup_names, hnames, ?_⟩, fun name hname ↦ ?_⟩
    · rintro name hglobal _ hname rfl
      exact hfree name hname .global (by decide) hglobal
    · rcases List.mem_append.1 hname with hglobal | hname
      -- a global is nothing else
      · have hglobal : name ∈ p.namesOf .global := hglobal
        exact ⟨fun hcalled ↦ absurd (h.kind_unique hglobal hcalled) (by decide),
          fun hcalled ↦ absurd (h.kind_unique hglobal hcalled) (by decide)⟩
      · exact ⟨hfree name hname .function (by decide), hfree name hname .script (by decide)⟩

/-- In a layer that is accepted, names are told apart all over a body exactly if no name of its
parameters is given to something else later. -/
theorem Session.Reachable.views_iff {s s' : Session} {source : String} {depth : Nat}
    (hs : s.Reachable) (h : s.compileLayer source = (.ok depth, s')) :
    ∃ items, ReadsAs source items ∧ ∀ before d later, items = before ++ .callable d :: later →
      ((∀ names ∈ d.views s'.program, s'.program.TellsApart names) ↔
        ∀ name ∈ d.paramNames, ¬d.NamedLater later name) := by
  obtain ⟨-, -, items, hitems, hcompile⟩ := compileLayer_ok h
  refine ⟨items, hitems, fun before d later hsplit ↦ ?_⟩
  have hmem : .callable d ∈ items := hsplit ▸ List.mem_append_right _ List.mem_cons_self
  obtain ⟨declared, r, hdeclared, hr, hcallables, hsame, hruns⟩ := Layer.compile_runs hs.sound rfl
    (fun _ hd ↦ hitems.ordered.isWord hd) hcompile
  rw [hsplit] at hdeclared
  obtain ⟨hnodup, ⟨c, hc, hparams⟩, hlater⟩ :=
    Layer.paramNames_declareAll hs.named.deepen rfl hdeclared
  have hnames : ∀ kind, s'.program.namesOf kind = declared.namesOf kind := fun kind ↦
    (hsame.namesOf kind).trans (hr kind)
  obtain ⟨c', hc', hbare⟩ := hsame.callable_some ((hcallables _).trans hc)
  have hstart : s'.program.bodyNames d.owner = s'.program.globals.names ++ d.paramNames := by
    rw [(hs.next h).named.bodyNames hc', ← hparams]
    exact congrArg (fun c ↦ s'.program.globals.names ++ c.params.map Identifier.name) hbare
  have hiff : s'.program.TellsApart (s'.program.globals.names ++ d.paramNames) ↔
      ∀ name ∈ d.paramNames, ¬d.NamedLater later name := by
    rw [(hs.next h).namesApart.tellsApart_iff hnodup]
    refine forall₂_congr fun name hname ↦ ?_
    simp only [hnames, hlater name hname]
    constructor
    · rintro hfree ⟨i, hi, kind, hkind, hdeclares⟩
      exact hfree kind hkind ⟨i, hi, hdeclares⟩
    · rintro hnone kind hkind ⟨i, hi, hdeclares⟩
      exact hnone ⟨i, hi, kind, hkind, hdeclares⟩
  rw [← hiff]
  refine ⟨fun hviews ↦ hviews _ (mem_stmtViews_self _ _), fun htells ↦ ?_⟩
  obtain ⟨t, id, t', ht, hle, hrun⟩ := hruns d hmem
  -- the body was lowered in a program with the same names
  have hback := hsame.symm.trans ht
  rw [CallableDecl.views, ← hstart, ← hback.bodyNames]
  rw [← hstart, ← hback.bodyNames] at htells
  exact fun names hview ↦ (Layer.tellsApart_lowerBody (Nat.succ_pos _) hle hrun
    (htells.congr hback.namesOf) names hview).congr fun kind ↦ (hback.namesOf kind).symm

/-! ## Single texts -/

theorem compileSource_eq_ok {source : String} {v : Vocabulary} {p : Program}
    (h : compileSource source v = .ok p) :
    ∃ depth s, (Session.new v none).compileLayer source = (.ok depth, s) ∧ s.program = p := by
  rw [compileSource] at h
  split at h
  next depth s hlayer =>
    cases h
    exact ⟨depth, s, hlayer, rfl⟩
  next => contradiction

/-- In a text that compiles, take the body of any callable. At all its points the globals, the
parameters and the variables declared by then have different names, and none of these is that of a
function or a script, exactly if the name of no parameter is given to a global, a function or a
script by the callable itself or by an item behind it. -/
theorem visible_names_distinct_iff {source : String} {v : Vocabulary} {p : Program}
    (h : compileSource source v = .ok p) :
    ∃ items, ReadsAs source items ∧ ∀ before d later, items = before ++ .callable d :: later →
      ((∀ names ∈ d.views p, p.TellsApart names) ↔
        ∀ name ∈ d.paramNames, ¬d.NamedLater later name) := by
  obtain ⟨depth, s, hlayer, rfl⟩ := compileSource_eq_ok h
  exact (Session.Reachable.new v none).views_iff hlayer

namespace Sample

/-- The items of a text, if it has any. -/
def items? (source : String) : Option (List Item) :=
  (lex source).toOption.bind fun ts ↦ (parseFile source ts).toOption

theorem items?_of_readsAs {source : String} {items : List Item} (h : ReadsAs source items) :
    items? source = some items := by
  obtain ⟨ts, hlex, hparse⟩ := h
  rw [items?, hlex]
  exact congrArg Except.toOption hparse

def paramNames? : Item → Option (List String)
  | .callable d => some d.paramNames
  | _ => none

theorem paramNames?_eq_some {i : Item} {names : List String} (h : paramNames? i = some names) :
    ∃ d, i = .callable d ∧ d.paramNames = names := by
  cases i with
  | callable d => exact ⟨d, rfl, Option.some.inj h⟩
  | directive | global | define => contradiction

/-- Whether no parameter has the name of an item. -/
def paramsApart (items : List Item) : Bool :=
  items.all fun
    | .callable d =>
      d.paramNames.all fun name ↦ items.all fun i ↦ i.declares?.map (·.1) != some name
    | _ => true

theorem not_namedLater_of_paramsApart {items before later : List Item} {d : CallableDecl}
    (h : paramsApart items = true) (hitems : items = before ++ .callable d :: later) {name : String}
    (hname : name ∈ d.paramNames) : ¬d.NamedLater later name := by
  rintro ⟨i, hi, kind, -, hdeclares⟩
  have hmem : ∀ {j}, j ∈ .callable d :: later → j ∈ items := fun hj ↦
    hitems ▸ List.mem_append_right _ hj
  have hcallable := List.all_eq_true.1 h _ (hmem List.mem_cons_self)
  have hother := List.all_eq_true.1 (List.all_eq_true.1 hcallable name hname) i (hmem hi)
  rw [hdeclares] at hother
  simp at hother

/-- What is known of a result holds of what was returned. -/
theorem exists_ok_of_map {ε α β : Type} {x : Except ε α} {f : α → β} {b : β}
    (h : x.toOption.map f = some b) : ∃ a, x = .ok a ∧ f a = b := by
  cases x with
  | error e => contradiction
  | ok a => exact ⟨a, rfl, Option.some.inj h⟩

/-- A global behind a function that has a parameter of its name. -/
def lateGlobal : String :=
  "fn f(x) \x7b \x7d
global x
script main() \x7b \x7d"

end Sample

set_option maxRecDepth 2000 in
/-- In the sample the names are told apart at all points of all bodies. -/
theorem visible_names_distinct_iff_sample :
    ∃ p items, compileSource Sample.source Sample.vocabulary = .ok p ∧ p.globals.names = ["g"] ∧
      ReadsAs Sample.source items ∧
      ∀ d, .callable d ∈ items → ∀ names ∈ d.views p, p.TellsApart names := by
  obtain ⟨s, hs⟩ := Sample.accepted
  obtain ⟨-, hglobals, -⟩ := Sample.compiles
  rw [hs] at hglobals
  have hp : compileSource Sample.source Sample.vocabulary = .ok s.program := by
    rw [compileSource, show Session.new Sample.vocabulary none = Sample.start from rfl, hs]
  have hparams : (Sample.items? Sample.source).map Sample.paramsApart = some true := by
    -- the letters of a literal need not be decoded
    have hletters : Sample.source.toList = _ := String.toList_ofList
    rw [Sample.items?, lex, hletters]
    decide +kernel
  obtain ⟨items, hitems, hiff⟩ := visible_names_distinct_iff hp
  rw [Sample.items?_of_readsAs hitems] at hparams
  refine ⟨_, items, hp, hglobals, hitems, fun d hd ↦ ?_⟩
  obtain ⟨before, later, hsplit⟩ := List.append_of_mem hd
  exact (hiff before d later hsplit).2 fun name hname ↦
    Sample.not_namedLater_of_paramsApart (Option.some.inj hparams) hsplit hname

/-- Names are not told apart in every text that compiles: here the parameter and the global are in
sight under one name. -/
theorem visible_names_not_distinct :
    ∃ p items d, compileSource Sample.lateGlobal Sample.vocabulary = .ok p ∧
      ReadsAs Sample.lateGlobal items ∧ .callable d ∈ items ∧ ["x", "x"] ∈ d.views p ∧
      ¬p.TellsApart ["x", "x"] := by
  obtain ⟨hcompiles, hparams⟩ :
      (compileSource Sample.lateGlobal Sample.vocabulary).toOption.map (·.globals.names)
        = some ["x"] ∧
      (Sample.items? Sample.lateGlobal).map (·.filterMap Sample.paramNames?)
        = some [["x"], []] := by
    decide +kernel
  obtain ⟨p, hp, hglobals⟩ := Sample.exists_ok_of_map hcompiles
  obtain ⟨depth, s, hlayer, -⟩ := compileSource_eq_ok hp
  obtain ⟨-, -, items, hitems, -⟩ := Session.compileLayer_ok hlayer
  rw [Sample.items?_of_readsAs hitems] at hparams
  have hfound : items.filterMap Sample.paramNames? = [["x"], []] := Option.some.inj hparams
  have hmem : ["x"] ∈ items.filterMap Sample.paramNames? := hfound ▸ List.mem_cons_self
  obtain ⟨i, hi, hparam⟩ := List.mem_filterMap.1 hmem
  obtain ⟨d, rfl, hnames⟩ := Sample.paramNames?_eq_some hparam
  have hstart : p.globals.names ++ d.paramNames ∈ d.views p := mem_stmtViews_self _ _
  rw [hglobals, hnames] at hstart
  exact ⟨p, items, d, hp, hitems, hi, hstart, fun htells ↦ absurd htells.nodup (by decide)⟩

end CharacterScript
