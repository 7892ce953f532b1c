import CharacterScript.Proofs.Lowering.Alike
import CharacterScript.Proofs.Lowering.Growth
import CharacterScript.Proofs.Relocation.Trees
import CharacterScript.Proofs.TreeParts

/-!
# Lowering two trees side by side

Two trees that are the same but for a `Motion` are lowered at two places, from works that are alike.
The recursion over the trees is gone through here once, whatever it is that is then known of the two
runs.

## What is said of two runs

A `Comparison` has a relation between works and an `Outcome`, which is what it says of two results.
It may depend on the names that the code looks up among the definitions (`Expr.lookups` and the
like), because some comparisons end where a certain name is looked up. A comparison has to say
something of results that agree, of failures, and of one step after the other; then what the second
step looks up is added to what the first one does. The one used most is `Comparison.agreeing`: both
runs succeed, with equal values and works that are alike again, or both fail with one code.

## What is asked of the places

`Site.Reads` says that names and calculations which the motion lets stand for each other are read in
a way that the comparison allows. `Comparison.Along` adds what statements need: that a variable is
declared so, and that works stay alike when a block is begun and when its scope is put into its
place. The places are related too, since those inside a block are others than those around it.

The main results are `Expr.Moves.holds` for expressions and `StmtsMove.holds` for statements. From
the statements of a body, `Layer.agree_lowerBody` goes on to the body.
-/

namespace CharacterScript

open Running

/-! ## A tree beside itself

Where one tree is lowered twice, a motion has to let all of it stay what it is. -/

/-- What is at the place may stay what it is. -/
structure Motion.Keeps (m : Motion) (span : Span) : Prop where
  /-- The place itself may stay. -/
  place : m.place span span
  /-- So may a name that is there. -/
  name : ∀ s fromTarget, m.name s fromTarget span (.name s fromTarget span)

/-- All stays what it is: the places are `seen`, and the calculations are `known`. -/
def Motion.staying (seen : Span → Prop) (known : String → Prop) : Motion where
  place span span' := span = span' ∧ seen span
  name s fromTarget span e := e = .name s fromTarget span ∧ seen span
  calculation := known

theorem Motion.keeps_staying {seen : Span → Prop} {known : String → Prop} {span : Span}
    (h : seen span) : (Motion.staying seen known).Keeps span :=
  ⟨⟨rfl, h⟩, fun _ _ ↦ ⟨rfl, h⟩⟩

section

variable {m : Motion}

mutual

theorem Expr.moves_self : ∀ e : Expr, (∀ r ∈ e.spans, m.Keeps r) →
    (∀ text ∈ e.calculations, m.calculation text) → e.Moves m e
  | .number _ _, _, _ => .number
  | .name s fromTarget span, h, _ => .name ((h span (List.mem_singleton_self _)).name s fromTarget)
  | .call c _, h, hknown => .call (c.moves_self (List.forall_mem_cons.1 h).2 hknown)
  | .calculation text span, h, hknown =>
    .calculation (h span (List.mem_singleton_self _)).place
      (hknown text (List.mem_singleton_self _))
  | .not inner _, h, hknown => .not (inner.moves_self (List.forall_mem_cons.1 h).2 hknown)
  | .binary _ left right _, h, hknown => by
    obtain ⟨hleft, hright⟩ := List.forall_mem_append.1 (List.forall_mem_cons.1 h).2
    obtain ⟨hleft', hright'⟩ := List.forall_mem_append.1 hknown
    exact .binary (left.moves_self hleft hleft') (right.moves_self hright hright')

theorem Call.moves_self : ∀ c : Call, (∀ r ∈ c.spans, m.Keeps r) →
    (∀ text ∈ c.calculations, m.calculation text) → c.Moves m c
  | .mk _ _ _ args _, h, hknown =>
    .mk (argsMove_self args (List.forall_mem_cons.1 (List.forall_mem_cons.1 h).2).2 hknown)

theorem Arg.moves_self : ∀ a : Arg, (∀ r ∈ a.spans, m.Keeps r) →
    (∀ text ∈ a.calculations, m.calculation text) → a.Moves m a
  | .expr e, h, hknown => .expr (e.moves_self h hknown)
  | .text _ _, _, _ => .text

theorem argsMove_self : ∀ as : List Arg, (∀ r ∈ argSpans as, m.Keeps r) →
    (∀ text ∈ argCalculations as, m.calculation text) → ArgsMove m as as
  | [], _, _ => .nil
  | a :: as, h, hknown => by
    obtain ⟨ha, has⟩ := List.forall_mem_append.1 h
    obtain ⟨ha', has'⟩ := List.forall_mem_append.1 hknown
    exact .cons (a.moves_self ha ha') (argsMove_self as has has')

end

mutual

theorem Stmt.moves_self : ∀ s : Stmt, (∀ r ∈ s.spans, m.Keeps r) →
    (∀ text ∈ s.calculations, m.calculation text) → s.Moves m s
  | .break_ _, _, _ => .break_
  | .call c, h, hknown => .call (c.moves_self h hknown)
  | .let_ _ _ value _, h, hknown => by
    obtain ⟨hname, hvalue⟩ := List.forall_mem_cons.1 (List.forall_mem_cons.1 h).2
    exact .let_ hname.place (value.moves_self hvalue hknown)
  | .assign _ _ _ value _, h, hknown =>
    .assign (value.moves_self (List.forall_mem_cons.1 (List.forall_mem_cons.1 h).2).2 hknown)
  | .return_ none _, _, _ => .return_
  | .return_ (some value) _, h, hknown =>
    .returnValue (value.moves_self (List.forall_mem_cons.1 h).2 hknown)
  | .loop body _, h, hknown => .loop (body.moves_self (List.forall_mem_cons.1 h).2 hknown)
  | .if_ cond body rest _, h, hknown => by
    obtain ⟨hfront, hrest⟩ := List.forall_mem_append.1 (List.forall_mem_cons.1 h).2
    obtain ⟨hcond, hbody⟩ := List.forall_mem_append.1 hfront
    obtain ⟨hcond', hback'⟩ := List.forall_mem_append.1 hknown
    obtain ⟨hbody', hrest'⟩ := List.forall_mem_append.1 hback'
    exact .if_ (cond.moves_self hcond hcond') (body.moves_self hbody hbody')
      (rest.moves_self hrest hrest')
  | .lone _ _, _, _ => .lone

theorem stmtsMove_self : ∀ ss : List Stmt, (∀ r ∈ stmtSpans ss, m.Keeps r) →
    (∀ text ∈ stmtCalculations ss, m.calculation text) → StmtsMove m ss ss
  | [], _, _ => .nil
  | s :: ss, h, hknown => by
    obtain ⟨hs, hss⟩ := List.forall_mem_append.1 h
    obtain ⟨hs', hss'⟩ := List.forall_mem_append.1 hknown
    exact .cons (s.moves_self hs hs') (stmtsMove_self ss hss hss')

theorem Block.moves_self : ∀ b : Block, (∀ r ∈ b.spans, m.Keeps r) →
    (∀ text ∈ b.calculations, m.calculation text) → b.Moves m b
  | .mk stmts _, h, hknown => .mk (stmtsMove_self stmts (List.forall_mem_cons.1 h).2 hknown)

theorem Branches.moves_self : ∀ b : Branches, (∀ r ∈ b.spans, m.Keeps r) →
    (∀ text ∈ b.calculations, m.calculation text) → b.Moves m b
  | .done, _, _ => .done
  | .else_ body, h, hknown => .else_ (body.moves_self h hknown)
  | .elif cond body rest, h, hknown => by
    obtain ⟨hfront, hrest⟩ := List.forall_mem_append.1 h
    obtain ⟨hcond, hbody⟩ := List.forall_mem_append.1 hfront
    obtain ⟨hcond', hback'⟩ := List.forall_mem_append.1 hknown
    obtain ⟨hbody', hrest'⟩ := List.forall_mem_append.1 hback'
    exact .elif (cond.moves_self hcond hcond') (body.moves_self hbody hbody')
      (rest.moves_self hrest hrest')

end

end

/-! ## Ways to compare two runs -/

/-- A way to compare two runs of code that looks up some names. -/
structure Comparison where
  /-- The works from which the runs start, and those with which they end. -/
  alike : Work → Work → Prop
  /-- Pushing the same onto both keeps them alike. -/
  parallel : Work.Parallel alike
  /-- What is said of the results of code that looks up these names. -/
  Outcome : List String → ∀ {α : Type}, EStateM.Result Problem Work α →
    EStateM.Result Problem Work α → Prop
  /-- Runs that agree are as they should be, whatever they look up. -/
  of_agree : ∀ {α : Type} {r r' : EStateM.Result Problem Work α}, Agree alike Eq r r' →
    Outcome [] r r'
  /-- So are runs that fail with the same code. -/
  of_error : ∀ {α : Type} {names : List String} {e e' : Problem} {w w' : Work}, e.code = e'.code →
    Outcome names (.error e w : EStateM.Result Problem Work α) (.error e' w')
  /-- Steps that are compared one by one are compared as a whole, by all they look up. -/
  andThen : ∀ {α β : Type} {first second : List String} {r r' : EStateM.Result Problem Work α}
    {f g : α → Work → EStateM.Result Problem Work β}, Outcome first r r' →
    (∀ a w w', r = .ok a w → r' = .ok a w' → alike w w' → Outcome second (f a w) (g a w')) →
    Outcome (first ++ second) (Running.andThen r f) (Running.andThen r' g)

/-- The runs agree, whatever is looked up. -/
def Comparison.agreeing {R : Work → Work → Prop} (hR : Work.Parallel R) : Comparison where
  alike := R
  parallel := hR
  Outcome _ := Agree R Eq
  of_agree h := h
  of_error h := h
  andThen h hfg := h.andThen fun a b w w' hr hr' hab hw ↦ by
    subst hab
    exact hfg a w w' hr hr' hw

/-- From works that are alike, the two results are as the comparison says. -/
def Comparison.Holds (C : Comparison) (names : List String) {α : Type} (x y : Lowering α) : Prop :=
  ∀ w w', C.alike w w' → C.Outcome names (x w) (y w')

namespace Comparison.Holds

variable {C : Comparison} {α β : Type} {names first second : List String} {x y : Lowering α}
variable {f g : α → Lowering β}

theorem of_matches (h : Matches C.alike Eq x y) : C.Holds [] x y :=
  fun w w' hw ↦ C.of_agree (h w w' hw)

theorem throw {e e' : Problem} (h : e.code = e'.code) :
    C.Holds names (throw e : Lowering α) (throw e') :=
  fun _ _ _ ↦ C.of_error h

theorem bind (hxy : C.Holds first x y) (hfg : ∀ a, C.Holds second (f a) (g a)) :
    C.Holds (first ++ second) (x >>= f) (y >>= g) := by
  intro w w' hw
  rw [bind_eq_andThen, bind_eq_andThen]
  exact C.andThen (hxy w w' hw) fun a t t' _ _ ht ↦ hfg a t t' ht

/-- What follows looks nothing up. -/
theorem bind_nil (hxy : C.Holds names x y) (hfg : ∀ a, C.Holds [] (f a) (g a)) :
    C.Holds names (x >>= f) (y >>= g) :=
  List.append_nil names ▸ hxy.bind hfg

theorem then_matches (hxy : C.Holds names x y) (hfg : ∀ a, Matches C.alike Eq (f a) (g a)) :
    C.Holds names (x >>= f) (y >>= g) :=
  hxy.bind_nil fun a ↦ .of_matches (hfg a)

theorem after_matches (hxy : Matches C.alike Eq x y) (hfg : ∀ a, C.Holds names (f a) (g a)) :
    C.Holds names (x >>= f) (y >>= g) :=
  (of_matches hxy).bind hfg

theorem get_bind {f g : Work → Lowering α}
    (hfg : ∀ w w', C.alike w w' → C.Holds names (f w) (g w')) :
    C.Holds names (get >>= f) (get >>= g) :=
  fun w w' hw ↦ hfg w w' hw w w' hw

end Comparison.Holds

/-! ## Expressions -/

/-- At the sites, what the motion lets stand for each other is read as the comparison says. -/
structure Site.Reads (C : Comparison) (m : Motion) (env' : Env) (site site' : Site) : Prop where
  /-- A name, and what stands for it. -/
  name : ∀ {s fromTarget span e}, m.name s fromTarget span e →
    C.Holds [s] (site.name s fromTarget span) (e.lower env' site')
  /-- A calculation, and the one that stands for it. -/
  calculate : ∀ {text span span'}, m.calculation text → m.place span span' →
    C.Holds (wordsOf text) (site.calculate text span) (site'.calculate text span')

theorem Call.Moves.name_eq {m : Motion} {c c' : Call} (h : c.Moves m c') :
    c.name = c'.name ∧ c.collapse = c'.collapse := by
  cases h
  exact ⟨rfl, rfl⟩

section

variable {C : Comparison} {m : Motion} {env env' : Env} {site site' : Site}

mutual

theorem Expr.Moves.holds (hnames : Env.SameMeaning C.alike env env')
    (hsite : Site.Reads C m env' site site') : ∀ {e e' : Expr}, e.Moves m e' →
    C.Holds e.lookups (e.lower env site) (e'.lower env' site')
  | _, _, .number => .of_matches (Lowering.matches_pushNumber C.parallel _ _ _)
  | _, _, .name h => hsite.name h
  | _, _, .calculation hplace h =>
    .then_matches (hsite.calculate h hplace) fun _ ↦ Lowering.matches_pushNumber C.parallel _ _ _
  | _, _, .not h => .then_matches (Expr.Moves.holds hnames hsite h) fun _ ↦ .pure _
  | _, _, .binary hleft hright =>
    .bind (Expr.Moves.holds hnames hsite hleft) fun _ ↦
      .then_matches (Expr.Moves.holds hnames hsite hright) fun _ ↦ .pure _
  | _, _, .call h => by
    rw [Expr.lower, Expr.lower, h.name_eq.1]
    exact .then_matches (Call.Moves.holds hnames hsite h) fun _ ↦ .pure _

theorem Call.Moves.holds (hnames : Env.SameMeaning C.alike env env')
    (hsite : Site.Reads C m env' site site') : ∀ {c c' : Call}, c.Moves m c' →
    C.Holds c.lookups (c.lower env site) (c'.lower env' site')
  | _, _, .mk h => by
    rw [Call.lower, Call.lower, Call.lookups]
    refine .get_bind fun w w' hw ↦ ?_
    rw [hnames.callee? hw]
    split
    · exact .throw rfl
    · exact .after_matches (Lowering.matches_fit _ _ _ _) fun _ ↦
        .then_matches (ArgsMove.holds hnames hsite h []) fun _ ↦
          .bind (matches_checkArgs _ _ _ _ _ _ _) fun _ ↦ .pure _

theorem Arg.Moves.holds (hnames : Env.SameMeaning C.alike env env')
    (hsite : Site.Reads C m env' site site') : ∀ {a a' : Arg}, a.Moves m a' →
    C.Holds a.lookups (a.lower env site) (a'.lower env' site')
  | _, _, .expr h => Expr.Moves.holds hnames hsite h
  | _, _, .text => .of_matches (Lowering.matches_pushString C.parallel _ _ _)

theorem ArgsMove.holds (hnames : Env.SameMeaning C.alike env env')
    (hsite : Site.Reads C m env' site site') : ∀ {as as' : List Arg}, ArgsMove m as as' →
    ∀ done : List Operand,
    C.Holds (argLookups as) (lowerArgs env site done as) (lowerArgs env' site' done as')
  | _, _, .nil, _ => .of_matches (.pure _)
  | _, _, .cons h hmore, _ =>
    .bind (Arg.Moves.holds hnames hsite h) fun _ ↦ ArgsMove.holds hnames hsite hmore _

end

end

/-! ### Inside a definition

There no name is looked up among the definitions, and every place is that of the use. -/

section

variable {R : Work → Work → Prop} (hR : Work.Parallel R) {env env' : Env}
variable (hnames : Env.SameMeaning R env env') (pos pos' : Position)

include hR hnames

/-- Trees that differ in places only are lowered alike. -/
theorem Expr.Moves.matches_inside {e e' : Expr} (h : e.Moves .same e') :
    Matches R Eq (e.lower env (.inside env pos)) (e'.lower env' (.inside env' pos')) := by
  have hsite : Site.Reads (.agreeing hR) .same env' (.inside env pos) (.inside env' pos') := by
    refine ⟨?_, fun _ _ ↦ matches_calculated _ (fun _ ↦ pos) fun _ ↦ pos'⟩
    rintro s fromTarget _ _ ⟨span, rfl⟩
    exact hnames.matches_plainName s fromTarget _ _
  exact h.holds (C := .agreeing hR) hnames hsite

theorem Expr.matches_inside (e : Expr) :
    Matches R Eq (e.lower env (.inside env pos)) (e.lower env' (.inside env' pos')) := by
  have hself : e.Moves .same e :=
    e.moves_self (fun r _ ↦ ⟨trivial, fun _ _ ↦ ⟨r, rfl⟩⟩) fun _ _ ↦ trivial
  exact hself.matches_inside hR hnames pos pos'

end

/-! ## Blocks

A block adds an empty scope, fills it, and puts it into the place that was kept for it. While it is
filled more scopes may be added behind, but the empty one stays. -/

/-- The work with the empty scope of a block added, which is filled next. -/
def Work.opened (w : Work) (env : Env) : Work :=
  ⟨w.program.grow env.layer.depth [env.nested], env.nested⟩

/-- The work with the scope that was filled in `t` put into its place; the scope before it is the
one being filled again. -/
def Work.closed (w t : Work) : Work :=
  ⟨{ t.program with scopes := t.program.scopes.setIfInBounds w.program.scopes.size t.scope },
    w.scope⟩

/-- The scope of a block was added to `w`, and perhaps others behind it. -/
def Work.Within (w : Work) (env : Env) (t : Work) : Prop :=
  ∃ more, t.program = w.program.grow env.layer.depth (env.nested :: more)

theorem Block.lower_eq_andThen (env : Env) (stmts : List Stmt) (span : Span) (w : Work) :
    (Block.mk stmts span).lower env w =
      match word? (w.program.anonymous env.layer.depth).size with
      | none => .error (.limit (env.layer.pos span) .anonymousScopes)
          { w with program := w.program.grow env.layer.depth [env.nested] }
      | some place =>
        andThen (Block.fill env stmts span w.scope.vars.toList w.program.scopes.size (w.opened env))
          fun _ t ↦ .ok place (w.closed t) := by
  rw [Block.lower_apply]
  cases word? (w.program.anonymous env.layer.depth).size with
  | none => rfl
  | some place =>
    dsimp only
    rw [Work.opened]
    cases Block.fill env stmts span w.scope.vars.toList w.program.scopes.size
      ⟨w.program.grow env.layer.depth [env.nested], env.nested⟩ <;> rfl

theorem Block.within_of_fill {env : Env} {stmts : List Stmt} {span : Span}
    {vars : List Identifier} {id : ScopeId} {w t : Work}
    (h : Block.fill env stmts span vars id (w.opened env) = .ok () t) : w.Within env t := by
  have hgrows : Grows env.layer.depth (Block.fill env stmts span vars id) :=
    .bind (grows_lowerStmts (env.enter vars id) stmts) fun _ ↦
      .bind (.of_quiet (Lowering.quiet_pushNumber _ _)) fun _ ↦ Lowering.grows_emit _
  obtain ⟨more, hmore, -⟩ := hgrows.program h
  refine ⟨more, ?_⟩
  rw [hmore, Work.opened, Program.grow_grow]
  rfl

/-- A comparison goes along pairs of places, also into blocks. -/
structure Comparison.Along (C : Comparison) (m : Motion) (P : Env → Env → Prop) : Prop where
  /-- At such places plain names mean the same. -/
  names : ∀ {env env'}, P env env' → Env.SameMeaning C.alike env env'
  /-- What was written there is read as the comparison says. -/
  reads : ∀ {env env'}, P env env' → Site.Reads C m env' (.written env) (.written env')
  /-- A variable is declared at both, or at neither. -/
  declares : ∀ {env env' span span'}, P env env' → m.place span span' → ∀ name value,
    C.Holds [] (lowerLet env name span value) (lowerLet env' name span' value)
  /-- The pools of the layer have the same sizes, so the two blocks get the same place there. -/
  pools : ∀ {env env' w w'}, P env env' → C.alike w w' →
    (w.program.anonymous env.layer.depth).size = (w'.program.anonymous env'.layer.depth).size
  /-- The works are alike when a block has been opened in both. -/
  opened : ∀ {env env' w w'}, P env env' → C.alike w w' → C.alike (w.opened env) (w'.opened env')
  /-- The places inside the blocks are such places again. -/
  enter : ∀ {env env' w w'}, P env env' → C.alike w w' →
    P (env.enter w.scope.vars.toList w.program.scopes.size)
      (env'.enter w'.scope.vars.toList w'.program.scopes.size)
  /-- The works are alike when the blocks have been filled and put in. -/
  closed : ∀ {env env' w w' t t'}, P env env' → C.alike w w' → C.alike t t' → w.Within env t →
    w'.Within env' t' → C.alike (w.closed t) (w'.closed t')

namespace Comparison.Along

variable {C : Comparison} {m : Motion} {P : Env → Env → Prop} (h : C.Along m P)

include h

/-- A block is lowered as its statements are, in the scopes nested in the two places. -/
theorem holds_block {env env' : Env} (henv : P env env') {names : List String}
    {stmts stmts' : List Stmt} {span span' : Span}
    (hstmts : ∀ {inner inner' : Env}, P inner inner' →
      C.Holds names (lowerStmts inner stmts) (lowerStmts inner' stmts')) :
    C.Holds names ((Block.mk stmts span).lower env) ((Block.mk stmts' span').lower env') := by
  intro w w' hw
  rw [Block.lower_eq_andThen, Block.lower_eq_andThen, h.pools henv hw]
  cases word? (w'.program.anonymous env'.layer.depth).size with
  | none => exact C.of_error rfl
  | some place =>
    have hfill : C.Holds names
        (Block.fill env stmts span w.scope.vars.toList w.program.scopes.size)
        (Block.fill env' stmts' span' w'.scope.vars.toList w'.program.scopes.size) :=
      .then_matches (hstmts (h.enter henv hw)) fun _ ↦
        .bind (Lowering.matches_pushNumber C.parallel _ _ _) fun _ ↦
          Lowering.matches_emit C.parallel _
    -- nothing is looked up when the scope is put into its place
    rw [← List.append_nil names]
    exact C.andThen (hfill _ _ (h.opened henv hw)) fun _ t t' hrun hrun' ht ↦ C.of_agree
      ⟨rfl, h.closed henv hw ht (Block.within_of_fill hrun) (Block.within_of_fill hrun')⟩

end Comparison.Along

/-! ## Statements

The induction is on the motion, one case for each constructor of the trees, and the comparison is
the same throughout. Only the places change, at blocks. -/

section

variable {C : Comparison} {m : Motion} {P : Env → Env → Prop}

mutual

theorem Stmt.Moves.holds (h : C.Along m P) : ∀ {s s' : Stmt}, s.Moves m s' →
    ∀ {env env' : Env}, P env env' → C.Holds s.lookups (s.lower env) (s'.lower env')
  | _, _, .break_, _, _, _ | _, _, .return_, _, _, _ =>
    .of_matches (.bind (Lowering.matches_pushNumber C.parallel _ _ _) fun _ ↦
      Lowering.matches_emit C.parallel _)
  | _, _, .call hcall, _, _, henv => by
    rw [Stmt.lower, Stmt.lower, hcall.name_eq.1, hcall.name_eq.2]
    exact .then_matches (hcall.holds (h.names henv) (h.reads henv)) fun _ ↦
      Lowering.matches_emit C.parallel _
  | _, _, .let_ hplace hvalue, _, _, henv =>
    .bind_nil (hvalue.holds (h.names henv) (h.reads henv)) fun _ ↦ h.declares henv hplace _ _
  | _, _, .assign hvalue, _, _, henv => by
    rw [Stmt.lower, Stmt.lower, Stmt.lookups]
    refine .after_matches ((h.names henv).matches_assignedSlot _ _ _) fun _ ↦
      .then_matches (hvalue.holds (h.names henv) (h.reads henv)) fun _ ↦ ?_
    split <;> exact Lowering.matches_emit C.parallel _
  | _, _, .returnValue hvalue, _, _, henv =>
    .then_matches (hvalue.holds (h.names henv) (h.reads henv)) fun _ ↦
      Lowering.matches_emit C.parallel _
  | _, _, .loop hbody, _, _, henv =>
    .then_matches (hbody.holds h henv) fun _ ↦ Lowering.matches_emit C.parallel _
  | _, _, .if_ hcond hbody hrest, _, _, henv =>
    .bind (hcond.holds (h.names henv) (h.reads henv)) fun _ ↦ .bind (hbody.holds h henv) fun _ ↦
      .then_matches (hrest.holds h henv _) fun _ ↦ Lowering.matches_emit C.parallel _
  | _, _, .lone, _, _, _ => .throw rfl

theorem StmtsMove.holds (h : C.Along m P) : ∀ {ss ss' : List Stmt}, StmtsMove m ss ss' →
    ∀ {env env' : Env}, P env env' →
    C.Holds (stmtLookups ss) (lowerStmts env ss) (lowerStmts env' ss')
  | _, _, .nil, _, _, _ => .of_matches (.pure _)
  | _, _, .cons hs hmore, _, _, henv =>
    .bind (hs.holds h henv) fun _ ↦ hmore.holds h henv

theorem Block.Moves.holds (h : C.Along m P) : ∀ {b b' : Block}, b.Moves m b' →
    ∀ {env env' : Env}, P env env' → C.Holds b.lookups (b.lower env) (b'.lower env')
  | _, _, .mk hstmts, _, _, henv => h.holds_block henv fun hinner ↦ hstmts.holds h hinner

theorem Branches.Moves.holds (h : C.Along m P) : ∀ {b b' : Branches}, b.Moves m b' →
    ∀ {env env' : Env}, P env env' → ∀ done : List Operand,
    C.Holds b.lookups (b.lower env done) (b'.lower env' done)
  | _, _, .done, _, _, _, _ => .of_matches (.pure _)
  | _, _, .else_ hbody, _, _, henv, _ => .then_matches (hbody.holds h henv) fun _ ↦ .pure _
  | _, _, .elif hcond hbody hrest, _, _, henv, _ =>
    .bind (hcond.holds (h.names henv) (h.reads henv)) fun _ ↦ .bind (hbody.holds h henv) fun _ ↦
      hrest.holds h henv _

end

end

/-! ## Bodies

A body begins in an empty scope behind all the others, and this scope is put into its place when
the statements have been lowered. In programs with as many scopes the two begin alike, so all is up
to the statements. -/

theorem Layer.agree_lowerBody {l l' : Layer} {owner : Owner} {b b' : Block} {p q : Program}
    {R : Work → Work → Prop} {Q : Program → Program → Prop} (hdepth : l.depth = l'.depth)
    (hsize : p.scopes.size = q.scopes.size)
    (h : Agree R Eq
      (lowerStmts (Env.body l owner p) b.stmts
        ⟨p.addRoot (.root l.depth owner), .root l.depth owner⟩)
      (lowerStmts (Env.body l' owner q) b'.stmts
        ⟨q.addRoot (.root l.depth owner), .root l.depth owner⟩))
    (hclose : ∀ {w w'}, R w w' → Agree Q Eq (bodyResult p.scopes.size (.ok () w))
      (bodyResult p.scopes.size (.ok () w'))) :
    Agree Q Eq (lowerBody l owner b p) (lowerBody l' owner b' q) := by
  rw [lowerBody_apply, lowerBody_apply, ← hdepth, ← hsize]
  cases hrun : lowerStmts (Env.body l owner p) b.stmts
      ⟨p.addRoot (.root l.depth owner), .root l.depth owner⟩ with
  | error e w =>
    obtain ⟨e', w', hrun', hcode⟩ := h.error_of_error hrun
    rw [hrun']
    exact hcode
  | ok u w =>
    obtain ⟨u', w', hrun', -, hw⟩ := h.ok_of_ok hrun
    rw [hrun']
    exact hclose hw

end CharacterScript
