import CharacterScript.Proofs.Lowering.SideBySide
import CharacterScript.Proofs.Relocation.Programs

/-!
# Lowering code that is written at other places

Two bodies that are the same but for what a `Motion` allows are lowered side by side, in programs
that are the same up to positions. The runs add the same code, because positions only show where a
problem is. Offsets count where definitions are looked up, and so both bodies have to see the same
ones (`Offsets.Alike`).

## Two motions

There are two motions. Inside the text of a definition nothing more is looked up, so at a place
where it is written out nothing must be found either: `Motion.plain` has neither names of
definitions nor calculations that mention one. `Motion.inlining` allows the tree of a definition,
moved so, to stand in place of the name of the definition where that is seen.

## An instance of a comparison

Both bodies are gone through by the theorem for all comparisons, `StmtsMove.holds`. The comparison
is agreement, between works that are the same up to positions (`Work.Moved`). So this module is
about single names and calculations: a definition that is seen on one side is seen on the other,
and where its tree stands in place of its name, it is lowered to what the name would have been
lowered to.
-/

namespace CharacterScript

open Running

/-! ## Places and states of two runs

Ids of scopes are the same in both runs, because the arenas have the same length. Names of
variables are, and their positions are not. -/

/-- Two offsets that have the same definitions in front of them. -/
def Offsets.Alike (place : Offsets) (o o' : Nat) : Prop :=
  ∀ a a', place a a' → (a < o ↔ a' < o')

/-- Places with the same variables, whose layers are compiled at other texts. -/
structure Env.Moved (top : Nat) (env env' : Env) : Prop where
  /-- The layers have one depth and one vocabulary. -/
  layers : env.layer.Same env'.layer
  /-- It is the layer at depth `top`. -/
  top : env.layer.depth = top
  /-- The code is part of the same callable. -/
  owner : env.owner = env'.owner
  /-- The parameters have the same names. -/
  params : env.params.map (·.name) = env'.params.map (·.name)
  /-- The variables of the enclosing scopes have the same names. -/
  outer : env.outer.map (·.name) = env'.outer.map (·.name)
  /-- The same scope is being filled. -/
  scope : env.scope = env'.scope
  /-- It is nested as deep. -/
  level : env.level = env'.level

/-- Works that are the same up to positions, the first with the definitions `t`. -/
structure Work.Moved (top : Nat) (place : Offsets) (t : Table Define) (w w' : Work) : Prop where
  /-- The programs are the same up to positions. -/
  program : w.program.Moved top place w'.program
  /-- The first has the definitions `t`. -/
  defines : w.program.defines = t
  /-- The scopes being filled are the same up to positions. -/
  scope : w'.scope.unplaced = w.scope.unplaced

namespace Work.Moved

variable {top : Nat} {place : Offsets} {t : Table Define} {w w' : Work}

theorem varNames (h : Work.Moved top place t w w') :
    w.scope.vars.toList.map (·.name) = w'.scope.vars.toList.map (·.name) := by
  have hvars := congrArg (fun s : Scope ↦ s.vars.toList.map (·.name)) h.scope
  simpa [Scope.unplaced, Function.comp_def] using hvars.symm

theorem parallel : Work.Parallel (Work.Moved top place t) where
  numbers h := (congrArg Scope.numbers h.scope).symm
  strings h := (congrArg Scope.strings h.scope).symm
  push is numbers strings h := ⟨h.program, h.defines, congrArg (fun s : Scope ↦ { s with
    instructions := s.instructions ++ is.toArray
    numbers := s.numbers ++ numbers.toArray
    strings := s.strings ++ strings.toArray }) h.scope⟩

end Work.Moved

/-! ## Questions have the same answers -/

section

variable {top : Nat} {place : Offsets}

theorem Define.Moved.visibleFrom {d d' : Define} (h : d.Moved top place d') {o o' : Nat}
    (ho : place.Alike o o') : d.visibleFrom top o = d'.visibleFrom top o' := by
  rw [Define.visibleFrom, Define.visibleFrom, h.depth]
  by_cases hdepth : d.depth = top
  · have hoffset : d.offset < o ↔ d'.offset < o' := ho _ _ (h.place hdepth)
    simp [hdepth, hoffset]
  · rw [beq_eq_false_iff_ne.2 hdepth, Bool.false_and, Bool.false_and]

namespace Env.Moved

variable {t : Table Define} {env env' : Env} {w w' : Work} {o o' : Nat}
variable (henv : Env.Moved top env env')

include henv

theorem enter {vars vars' : List Identifier} (hvars : vars.map (·.name) = vars'.map (·.name))
    (id : ScopeId) : Env.Moved top (env.enter vars id) (env'.enter vars' id) where
  layers := henv.layers
  top := henv.top
  owner := henv.owner
  params := henv.params
  outer := by simp [Env.enter, henv.outer, hvars]
  scope := rfl
  level := congrArg (· + 1) henv.level

theorem nested : env'.nested = env.nested := by
  rw [Env.nested, Env.nested, henv.layers.depth, henv.level, henv.owner, henv.scope]

variable (h : Work.Moved top place t w w')

include h

theorem define? (name : String) (ho : place.Alike o o') :
    Option.Rel (Define.Moved top place) (env.define? name o w) (env'.define? name o' w') := by
  rw [Env.define?, Env.define?, ← henv.layers.depth, henv.top]
  obtain ⟨hd, hd'⟩ | ⟨d, d', hd, hd', hmoved⟩ := both_of_rel (h.program.defines.get? name)
  · rw [hd, hd']
    exact .none
  · rw [hd, hd', Option.filter_some, Option.filter_some, hmoved.visibleFrom ho]
    split
    · exact .some hmoved
    · exact .none

theorem names_vars : (env.vars w).map (·.name) = (env'.vars w').map (·.name) := by
  have hglobals : w.program.globalIdents.map (·.name) = w'.program.globalIdents.map (·.name) := by
    rw [Program.globalIdents, Program.globalIdents, List.map_map, List.map_map,
      ← List.forall₂_eq_eq_eq, List.forall₂_map_left_iff, List.forall₂_map_right_iff]
    exact h.program.globals.forall₂_values.imp fun _ _ hg ↦ hg.name.symm
  simp only [Env.vars, List.map_append, hglobals, henv.params, henv.outer, h.varNames]

theorem define?_isSome (name : String) (ho : place.Alike o o') :
    (env.define? name o w).isSome = (env'.define? name o' w').isSome := by
  obtain ⟨hd, hd'⟩ | ⟨d, d', hd, hd', -⟩ := both_of_rel (henv.define? h name ho)
  all_goals rw [hd, hd']
  rfl

theorem substituted (text : String) (ho : place.Alike o o') :
    Site.substituted env w text o = Site.substituted env' w' text o' := by
  rw [Site.substituted, Site.substituted, ← henv.layers.depth, henv.top]
  have hvalues := h.program.defines.forall₂_values
  generalize w.program.defines.values = ds, w'.program.defines.values = ds' at hvalues ⊢
  induction hvalues generalizing text with
  | nil => rfl
  | cons hd _ ih =>
    rw [List.foldl_cons, List.foldl_cons, hd.expansion, hd.visibleFrom ho, hd.name]
    exact ih _

end Env.Moved

end

theorem Callable.Moved.calledAlike {c c' : Callable} (h : c.Moved c') : c.CalledAlike c' :=
  ⟨by simpa using (congrArg List.length h.params).symm, h.refCount.symm⟩

theorem Program.Moved.callAlike {top : Nat} {place : Offsets} {p q : Program}
    (h : p.Moved top place q) : p.CallAlike q := by
  have hrel : ∀ {x y : Option Callable}, Option.Rel Callable.Moved x y →
      Option.Rel Callable.CalledAlike x y := by
    intro x y hxy
    cases hxy with
    | none => exact .none
    | some hc => exact .some hc.calledAlike
  exact ⟨h.sameTaken, fun name ↦ hrel (h.scripts.get? name),
    fun name ↦ hrel (h.functions.get? name), hrel h.main⟩

/-! ## What may stand for what

The motions differ in what may stand where a name stood. About calculations they say the same: no
definition has its name in one, or it is seen from both places. -/

/-- What the text of a definition leads to: no name and no calculation in it mentions a
definition. -/
def Motion.plain (t : Table Define) : Motion where
  place _ _ := True
  name s fromTarget _ e := t.get? s = none ∧ ∃ span, e = .name s fromTarget span
  calculation text := ∀ d ∈ t.values, containsWord text d.ident.name = false

/-- The tree of a definition in `t` may stand where the name of the definition stood, if `visible`
says so. -/
def Motion.inlining (t : Table Define) (visible : Define → Prop) : Motion where
  place _ _ := True
  name s fromTarget span e := Motion.same.name s fromTarget span e ∨
    ∃ d x, t.get? s = some d ∧ visible d ∧ d.expansion = some x ∧ x.tree.Moves (.plain t) e
  calculation _ := True

theorem Motion.free_inlining (t : Table Define) (visible : Define → Prop) :
    (Motion.inlining t visible).Free :=
  ⟨fun _ _ ↦ trivial, fun _ _ _ span ↦ .inl ⟨span, rfl⟩, fun _ ↦ trivial⟩

/-! ### Where it stands

A motion of an edited text compares no places. What is known of them comes from the two texts, and
is added afterwards. -/

/-- The motion between trees whose places are `seen` on the one side and `seen'` on the other. -/
def Motion.within (m : Motion) (seen seen' : Span → Prop) : Motion where
  place span span' := m.place span span' ∧ seen span ∧ seen' span'
  name s fromTarget span e := m.name s fromTarget span e ∧ seen span ∧ ∀ r ∈ e.spans, seen' r
  calculation := m.calculation

section

variable {m : Motion} {seen seen' : Span → Prop}

mutual

theorem Expr.Moves.within : ∀ {e e' : Expr}, e.Moves m e' → (∀ r ∈ e.spans, seen r) →
    (∀ r ∈ e'.spans, seen' r) → e.Moves (m.within seen seen') e'
  | _, _, .number, _, _ => .number
  | _, _, .name h, hs, hs' => .name ⟨h, hs _ (List.mem_singleton_self _), hs'⟩
  | _, _, .calculation hplace h, hs, hs' => .calculation
    ⟨hplace, hs _ (List.mem_singleton_self _), hs' _ (List.mem_singleton_self _)⟩ h
  | _, _, .not h, hs, hs' => .not
    (Expr.Moves.within h (List.forall_mem_cons.1 hs).2 (List.forall_mem_cons.1 hs').2)
  | _, _, .binary hleft hright, hs, hs' => by
    obtain ⟨hl, hr⟩ := List.forall_mem_append.1 (List.forall_mem_cons.1 hs).2
    obtain ⟨hl', hr'⟩ := List.forall_mem_append.1 (List.forall_mem_cons.1 hs').2
    exact .binary (Expr.Moves.within hleft hl hl') (Expr.Moves.within hright hr hr')
  | _, _, .call h, hs, hs' => .call
    (Call.Moves.within h (List.forall_mem_cons.1 hs).2 (List.forall_mem_cons.1 hs').2)

theorem Call.Moves.within : ∀ {c c' : Call}, c.Moves m c' → (∀ r ∈ c.spans, seen r) →
    (∀ r ∈ c'.spans, seen' r) → c.Moves (m.within seen seen') c'
  | _, _, .mk h, hs, hs' => .mk (ArgsMove.within h
    (List.forall_mem_cons.1 (List.forall_mem_cons.1 hs).2).2
    (List.forall_mem_cons.1 (List.forall_mem_cons.1 hs').2).2)

theorem Arg.Moves.within : ∀ {a a' : Arg}, a.Moves m a' → (∀ r ∈ a.spans, seen r) →
    (∀ r ∈ a'.spans, seen' r) → a.Moves (m.within seen seen') a'
  | _, _, .expr h, hs, hs' => .expr (Expr.Moves.within h hs hs')
  | _, _, .text, _, _ => .text

theorem ArgsMove.within : ∀ {as as' : List Arg}, ArgsMove m as as' → (∀ r ∈ argSpans as, seen r) →
    (∀ r ∈ argSpans as', seen' r) → ArgsMove (m.within seen seen') as as'
  | _, _, .nil, _, _ => .nil
  | _, _, .cons h hmore, hs, hs' => by
    obtain ⟨ha, has⟩ := List.forall_mem_append.1 hs
    obtain ⟨ha', has'⟩ := List.forall_mem_append.1 hs'
    exact .cons (Arg.Moves.within h ha ha') (ArgsMove.within hmore has has')

end

mutual

theorem Stmt.Moves.within : ∀ {s s' : Stmt}, s.Moves m s' → (∀ r ∈ s.spans, seen r) →
    (∀ r ∈ s'.spans, seen' r) → s.Moves (m.within seen seen') s'
  | _, _, .break_, _, _ => .break_
  | _, _, .call h, hs, hs' => .call (h.within hs hs')
  | _, _, .let_ hplace h, hs, hs' => by
    obtain ⟨hname, hvalue⟩ := List.forall_mem_cons.1 (List.forall_mem_cons.1 hs).2
    obtain ⟨hname', hvalue'⟩ := List.forall_mem_cons.1 (List.forall_mem_cons.1 hs').2
    exact .let_ ⟨hplace, hname, hname'⟩ (h.within hvalue hvalue')
  | _, _, .assign h, hs, hs' => .assign (h.within
    (List.forall_mem_cons.1 (List.forall_mem_cons.1 hs).2).2
    (List.forall_mem_cons.1 (List.forall_mem_cons.1 hs').2).2)
  | _, _, .return_, _, _ => .return_
  | _, _, .returnValue h, hs, hs' =>
    .returnValue (h.within (List.forall_mem_cons.1 hs).2 (List.forall_mem_cons.1 hs').2)
  | _, _, .loop h, hs, hs' =>
    .loop (h.within (List.forall_mem_cons.1 hs).2 (List.forall_mem_cons.1 hs').2)
  | _, _, .if_ hcond hbody hrest, hs, hs' => by
    obtain ⟨hfront, hback⟩ := List.forall_mem_append.1 (List.forall_mem_cons.1 hs).2
    obtain ⟨hfront', hback'⟩ := List.forall_mem_append.1 (List.forall_mem_cons.1 hs').2
    obtain ⟨hc, hb⟩ := List.forall_mem_append.1 hfront
    obtain ⟨hc', hb'⟩ := List.forall_mem_append.1 hfront'
    exact .if_ (hcond.within hc hc') (hbody.within hb hb') (hrest.within hback hback')
  | _, _, .lone, _, _ => .lone

theorem StmtsMove.within : ∀ {ss ss' : List Stmt}, StmtsMove m ss ss' →
    (∀ r ∈ stmtSpans ss, seen r) → (∀ r ∈ stmtSpans ss', seen' r) →
    StmtsMove (m.within seen seen') ss ss'
  | _, _, .nil, _, _ => .nil
  | _, _, .cons h hmore, hs, hs' => by
    obtain ⟨hhead, htail⟩ := List.forall_mem_append.1 hs
    obtain ⟨hhead', htail'⟩ := List.forall_mem_append.1 hs'
    exact .cons (h.within hhead hhead') (hmore.within htail htail')

theorem Block.Moves.within : ∀ {b b' : Block}, b.Moves m b' → (∀ r ∈ b.spans, seen r) →
    (∀ r ∈ b'.spans, seen' r) → b.Moves (m.within seen seen') b'
  | _, _, .mk h, hs, hs' =>
    .mk (h.within (List.forall_mem_cons.1 hs).2 (List.forall_mem_cons.1 hs').2)

theorem Branches.Moves.within : ∀ {b b' : Branches}, b.Moves m b' → (∀ r ∈ b.spans, seen r) →
    (∀ r ∈ b'.spans, seen' r) → b.Moves (m.within seen seen') b'
  | _, _, .done, _, _ => .done
  | _, _, .else_ h, hs, hs' => .else_ (h.within hs hs')
  | _, _, .elif hcond hbody hrest, hs, hs' => by
    obtain ⟨hfront, hback⟩ := List.forall_mem_append.1 hs
    obtain ⟨hfront', hback'⟩ := List.forall_mem_append.1 hs'
    obtain ⟨hc, hb⟩ := List.forall_mem_append.1 hfront
    obtain ⟨hc', hb'⟩ := List.forall_mem_append.1 hfront'
    exact .elif (hcond.within hc hc') (hbody.within hb hb') (hrest.within hback hback')

end

end

/-! ## Names and calculations

A written place looks up definitions and the inside of one does not. Where the tree of a
definition is written out, the two kinds of places meet. -/

section

variable {top : Nat} {place : Offsets} {t : Table Define} {env env' : Env}
variable {seen seen' : Span → Prop}

/-- The comparison that this module is about. -/
abbrev Work.relocated (top : Nat) (place : Offsets) (t : Table Define) : Comparison :=
  .agreeing (Work.Moved.parallel : Work.Parallel (Work.Moved top place t))

theorem Env.Moved.sameMeaning (henv : Env.Moved top env env') :
    Env.SameMeaning (Work.Moved top place t) env env' where
  vocabulary := henv.layers.vocabulary
  vars h := henv.names_vars h
  scriptId? h := h.program.sameTaken.scriptId?
  callee? h := Env.callee?_congr henv.layers.vocabulary h.program.callAlike

/-- A name that no definition in front of it has is read as it is. -/
theorem Site.name_written_of_none {s : String} {fromTarget : Bool} {span : Span} {w : Work}
    (h : env.define? s span.start w = none) :
    (Site.written env).name s fromTarget span w
      = env.plainName s fromTarget (fun _ ↦ env.layer.pos span) w := by
  rw [Site.written]
  dsimp only
  rw [get_bind, h]

/-- The name of a definition is read as the text of the definition. -/
theorem Site.name_written_of_some {s : String} {fromTarget : Bool} {span : Span} {w : Work}
    {d : Define} {e : Expansion} (h : env.define? s span.start w = some d)
    (he : d.expansion = some e) :
    (Site.written env).name s fromTarget span w
      = e.tree.lower env (.inside env (env.layer.pos span)) w := by
  rw [Site.written]
  dsimp only
  rw [get_bind, h]
  dsimp only
  rw [he]

/-- Nothing is put into the text of a calculation that names no definition. -/
theorem Site.substituted_of_absent {w : Work} {text : String}
    (h : ∀ d ∈ w.program.defines.values, containsWord text d.ident.name = false) (offset : Nat) :
    Site.substituted env w text offset = text := by
  rw [Site.substituted]
  generalize w.program.defines.values = ds at h
  induction ds with
  | nil => rfl
  | cons d ds ih =>
    have hrest := ih fun e he ↦ h e (List.mem_cons_of_mem _ he)
    rw [List.foldl_cons, h d List.mem_cons_self, Bool.and_false]
    cases d.expansion <;> exact hrest

/-- The inside of a definition is read as it is where it is written out. -/
theorem Env.Moved.plain (henv : Env.Moved top env env') (pos : Position) :
    Site.Reads (Work.relocated top place t) (.plain t) env' (.inside env pos) (.written env') where
  name := by
    rintro s fromTarget _ _ ⟨hs, span, rfl⟩ w w' h
    have hnone : env'.define? s span.start w' = none := by
      obtain ⟨-, hd'⟩ | ⟨d, _, hd, -, -⟩ := both_of_rel (h.program.defines.get? s)
      · rw [Env.define?, hd']
        rfl
      · rw [h.defines, hs] at hd
        cases hd
    have hsite : (Expr.name s fromTarget span).lower env' (.written env') w'
        = env'.plainName s fromTarget (fun _ ↦ env'.layer.pos span) w' :=
      Site.name_written_of_none hnone
    rw [hsite]
    exact henv.sameMeaning.matches_plainName s fromTarget _ _ w w' h
  calculate := by
    intro text span span' hwords _ w w' h
    -- the definitions of the second layer have the names of the first
    have hwords' : ∀ d ∈ w'.program.defines.values, containsWord text d.ident.name = false := by
      intro d' hd'
      obtain ⟨name, hget'⟩ := Table.mem_values_iff.1 hd'
      obtain ⟨-, hnone⟩ | ⟨d, e, hget, he, hmoved⟩ := both_of_rel (h.program.defines.get? name)
      · cases hget'.symm.trans hnone
      · cases hget'.symm.trans he
        rw [hmoved.name]
        exact hwords d (Table.mem_values_iff.2 ⟨name, h.defines ▸ hget⟩)
    have hsame : Site.substituted env' w' text span'.start = text :=
      Site.substituted_of_absent hwords' _
    have hsite : (Site.written env').calculate text span' w'
        = calculated (Site.substituted env' w' text span'.start)
          (fun _ ↦ env'.layer.pos span') w' := rfl
    rw [hsite, hsame]
    exact matches_calculated text (fun _ ↦ pos) (fun _ ↦ env'.layer.pos span') w w' h

/-- From the spans of either side the same definitions are seen, and the `visible` ones are. -/
structure Outlook (top : Nat) (place : Offsets) (visible : Define → Prop)
    (seen seen' : Span → Prop) :
    Prop where
  /-- The same definitions are seen from both sides. -/
  alike : ∀ {r r'}, seen r → seen' r' → place.Alike r.start r'.start
  /-- The definitions that may be put in are seen. -/
  visible : ∀ {d r}, visible d → seen r → d.visibleFrom top r.start = true

/-- Code is read alike where the same definitions are seen, also where one is written out. -/
theorem Env.Moved.written (henv : Env.Moved top env env') {visible : Define → Prop}
    (hseen : Outlook top place visible seen seen') :
    Site.Reads (Work.relocated top place t) ((Motion.inlining t visible).within seen seen') env'
      (.written env) (.written env') where
  name := by
    rintro s fromTarget span e ⟨⟨span', rfl⟩ | ⟨d, x, hd, hvis, hx, hmoves⟩, hspan, hspans⟩
    · refine .get_bind fun w w' h ↦ ?_
      have halike := hseen.alike hspan (hspans _ (List.mem_singleton_self _))
      obtain ⟨hd, hd'⟩ | ⟨d, d', hd, hd', hmoved⟩ := both_of_rel (henv.define? h s halike)
      · rw [hd, hd']
        exact henv.sameMeaning.matches_plainName s fromTarget _ _
      · rw [hd, hd']
        dsimp only
        rw [hmoved.expansion]
        split
        · exact .throw rfl
        · exact Expr.matches_inside Work.Moved.parallel henv.sameMeaning _ _ _
    · intro w w' h
      have hdefine : env.define? s span.start w = some d := by
        rw [Env.define?, h.defines, hd, Option.filter_some, henv.top,
          if_pos (hseen.visible hvis hspan)]
      have hsite : (Site.written env).name s fromTarget span w
          = x.tree.lower env (.inside env (env.layer.pos span)) w :=
        Site.name_written_of_some hdefine hx
      rw [hsite]
      exact hmoves.holds henv.sameMeaning (henv.plain _) w w' h
  calculate := by
    rintro text span span' - ⟨-, hspan, hspan'⟩
    refine .get_bind fun w w' h ↦ ?_
    rw [henv.substituted h text (hseen.alike hspan hspan')]
    exact matches_calculated _ _ _

end

/-! ## Statements -/

section

variable {top : Nat} {place : Offsets} {t : Table Define} {visible : Define → Prop}
variable {seen seen' : Span → Prop}

theorem Lowering.matches_declareVar_moved (kind : IdentKind) (name : String) (pos pos' : Position) :
    Matches (Work.Moved top place t) Eq (declareVar ⟨kind, name, pos⟩)
      (declareVar ⟨kind, name, pos'⟩) := by
  refine .modify fun w w' h ↦ { h with scope := ?_ }
  have hpush := congrArg
    (fun s : Scope ↦ { s with vars := s.vars.push ⟨kind, name, default⟩ }) h.scope
  simpa [Scope.unplaced] using hpush

theorem Work.Moved.size_scopes {w w' : Work} (h : Work.Moved top place t w w') :
    w.program.scopes.size = w'.program.scopes.size := by
  simpa using (congrArg Array.size h.program.scopes).symm

theorem Env.Moved.opened {env env' : Env} (henv : Env.Moved top env env') {w w' : Work}
    (h : Work.Moved top place t w w') : Work.Moved top place t (w.opened env) (w'.opened env') := by
  rw [Work.opened, Work.opened, henv.nested, ← henv.layers.depth]
  refine ⟨{ h.program with scopes := ?_, pools := ?_ }, h.defines, rfl⟩
  · simp [Program.grow, h.program.scopes]
  · simp [Program.grow, h.program.pools, h.size_scopes]

/-- Statements are lowered alike where the same definitions are seen. -/
theorem Outlook.along (hseen : Outlook top place visible seen seen') :
    (Work.relocated top place t).Along ((Motion.inlining t visible).within seen seen')
      (Env.Moved top) where
  names henv := henv.sameMeaning
  reads henv := henv.written hseen
  declares := by
    rintro env env' span span' henv ⟨-, hspan, hspan'⟩ name value
    have ho := hseen.alike hspan hspan'
    exact .of_matches (henv.sameMeaning.matches_lowerLet Work.Moved.parallel
      (fun h ↦ Env.isSome_taken?_congr (henv.names_vars h) (henv.define?_isSome h name ho)
        h.program.sameTaken) (Lowering.matches_declareVar_moved _ _ _ _) value)
  pools henv h := by
    rw [Program.anonymous, Program.anonymous, h.program.pools, henv.layers.depth]
  opened henv h := henv.opened h
  enter henv h := by
    have hvars := h.varNames
    rw [h.size_scopes]
    exact henv.enter hvars _
  closed _ h ht _ _ := by
    refine ⟨{ ht.program with scopes := ?_ }, ht.defines, h.scope⟩
    rw [Work.closed, Work.closed]
    dsimp only
    rw [Array.map_setIfInBounds, Array.map_setIfInBounds, ht.program.scopes, ht.scope,
      h.size_scopes]

theorem StmtsMove.matches_lower {ss ss' : List Stmt} {env env' : Env}
    (h : StmtsMove (.inlining t visible) ss ss') (hseen : Outlook top place visible seen seen')
    (hs : ∀ r ∈ stmtSpans ss, seen r) (hs' : ∀ r ∈ stmtSpans ss', seen' r)
    (henv : Env.Moved top env env') :
    Matches (Work.Moved top place t) Eq (lowerStmts env ss) (lowerStmts env' ss') :=
  (h.within hs hs').holds hseen.along henv

end

end CharacterScript
