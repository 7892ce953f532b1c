import CharacterScript.Proofs.Lowering.Bodies
import Mathlib.Logic.Relation

/-!
# The steps of a layer

A layer can stop anywhere: at an item that collides with another one, at a definition that goes in
circles, in the middle of a body. What it leaves behind is the result of those steps that it took.
`Layer.Step` lists the steps there are, each with what is known where it is taken, and
`Layer.steps_compile` says that compiling a layer takes nothing but such steps, whether it succeeds
or not. So a fact that every step keeps is a fact about every program a session reaches, wherever
its layers stopped: this is `Session.compileLayer_induction`.

The first fact of this kind is `Program.Named`. A table keeps each entry under the name that the
entry itself has.

## Invariants of sessions

A fact about programs is proved for all sessions by proving it of one step, for each of the few
steps there are. The steps come with what was asked before they are taken, so that an invariant
can use it: an item is put in only if its name was free, and a body only for a callable that was
declared. What a step does inside, such as how a body is lowered, is in the modules about that
step.
-/

namespace CharacterScript

open Running

namespace Layer

/-! ## Steps

There is one constructor for each thing that a layer does to a program: put an item in, record
itself, expand, lower a body, set it. -/

/-- What compiling the items of a layer does to a program, one thing at a time. -/
inductive Step (l : Layer) (items : List Item) (p : Program) : Program → Prop
  | declare {i q} (hi : i ∈ items) (h : l.Declared p i q) : l.Step items p q
  | record : l.Step items p { p with layers := p.layers.push (l.info items) }
  | expand {defines} (h : Expansion.SameTexts p.defines defines) :
    l.Step items p { p with defines }
  /-- A body is lowered, as far as that goes. -/
  | lower {owner body} (h : (owner, body) ∈ bodiesOf items) :
    l.Step items p (after (lowerBody l owner body) p)
  /-- The callable that gets a body was declared in this layer. -/
  | setBody {owner body c id} (h : (owner, body) ∈ bodiesOf items)
    (hc : p.callable? owner = some c) (hdepth : c.depth = l.depth) (hid : id < p.scopes.size) :
    l.Step items p (p.setBody owner id)

variable {l : Layer} {items : List Item}

theorem keeps_step {p q : Program} (hl : 0 < l.depth)
    (hword : ∀ d, .callable d ∈ items → IsWord d.name) (h : l.Step items p q) : l.Keeps p q := by
  cases h with
  | declare hi h => exact keeps_declared h fun d hd ↦ hword d (hd ▸ hi)
  | record => exact fun hp ↦ ⟨{ hp.1 with }, hp.2⟩
  | expand h => exact keeps_sameTexts h
  | lower => exact keeps_lowerBody hl _ _ p
  | @setBody owner _ _ _ _ _ _ hid =>
    rintro ⟨hp, hdepth⟩
    refine ⟨hp.setBody hid, ?_⟩
    cases owner <;> exact hdepth

/-! ## A layer is made of steps -/

private theorem steps_declareAll {some : List Item} (hsome : some ⊆ items) (p : Program) :
    Relation.ReflTransGen (l.Step items) p (after (l.declareAll some) p) := by
  induction some generalizing p with
  | nil => exact .refl
  | cons i rest ih =>
    obtain ⟨hi, hrest⟩ := List.cons_subset.1 hsome
    refine after_bind .trans ?_ fun _ q _ ↦ ih hrest q
    cases h : l.declareItem i p with
    | ok u q =>
      rw [after_of_ok h]
      exact .single (.declare hi (declareItem_declared h))
    | error e q =>
      rw [after_of_error h, declareItem_error h]

private theorem steps_lowerAll {bodies : List (Owner × Block)} (hbodies : bodies ⊆ bodiesOf items)
    {p : Program}
    (hcallables : ∀ owner ∈ bodies.map (·.1), ∃ c, p.callable? owner = some c ∧ c.depth = l.depth) :
    Relation.ReflTransGen (l.Step items) p (after (l.lowerAll bodies) p) := by
  induction bodies generalizing p with
  | nil => exact .refl
  | cons entry rest ih =>
    obtain ⟨owner, body⟩ := entry
    obtain ⟨hmem, hrest⟩ := List.cons_subset.1 hbodies
    refine after_bind .trans (.single (.lower hmem)) fun id q hq ↦ ?_
    rw [after_modify_bind]
    -- lowering a body leaves the callables alone, and setting it leaves their depths alone
    have hsame : ∀ other, q.callable? other = p.callable? other := fun other ↦ by
      obtain ⟨root, new, hafter, -⟩ := after_lowerBody l owner body p
      rw [← after_of_ok hq, hafter]
      cases other <;> rfl
    obtain ⟨c, hc, hdepth⟩ := hcallables owner List.mem_cons_self
    have hc' : q.callable? owner = some c := (hsame owner).trans hc
    refine .head (.setBody hmem hc' hdepth (lowerBody_lt hq)) (ih hrest fun other hother ↦ ?_)
    obtain ⟨d, hd, hdepth'⟩ := hcallables other (List.mem_cons_of_mem _ hother)
    rw [Program.callable?_setBody, hsame, hd]
    split
    · exact ⟨_, rfl, hdepth'⟩
    · exact ⟨d, rfl, hdepth'⟩

/-- Whether it succeeds or not, compiling the items of a layer takes a number of steps. -/
theorem steps_compile {p : Program} (hp : p.Sound) (hdepth : l.depth = p.depth + 1)
    (hword : ∀ d, .callable d ∈ items → IsWord d.name) :
    Relation.ReflTransGen (l.Step items) (Session.deepen p)
      (after (l.compile items) (Session.deepen p)) := by
  have hstart : (Session.deepen p).Sound ∧ (Session.deepen p).depth = l.depth :=
    ⟨hp.deepen, hdepth.symm⟩
  rw [compile_eq]
  refine after_bind .trans (steps_declareAll (List.Subset.refl items) _) fun _ q hq ↦ ?_
  have hgives : l.Gives items q :=
    declareAll_gives (gives_nil hp (hdepth ▸ Nat.lt_succ_self _)) hq
  have hkept := after_of_ok hq ▸ keeps_declareAll items _ hword hstart
  rw [after_modify_bind]
  refine .head .record ?_
  rw [after_get_bind]
  split
  · exact .refl
  · -- the definitions change, and with that neither the callables nor what there is to lower
    have htexts := Expansion.sameTexts_expandAll q.defines
    refine after_bind .trans ?_ fun _ r hr ↦ ?_
    · rw [after_onDefines]
      exact .single (.expand htexts)
    · obtain rfl := (after_of_ok hr).symm.trans (after_onDefines _ _)
      rw [after_get_bind]
      have hlower : ∀ {owner body},
          (owner, body) ∈ l.toLower q items ↔ (owner, body) ∈ bodiesOf items :=
        mem_toLower hkept.1 hgives
      refine steps_lowerAll (fun entry hentry ↦ hlower.1 hentry) fun owner howner ↦ ?_
      obtain ⟨⟨_, body⟩, hbody, rfl⟩ := List.mem_map.1 howner
      obtain ⟨c, hc, hd⟩ := (hgives.callables _).2 ⟨body, hlower.1 hbody⟩
      exact ⟨c, hc, hd⟩

end Layer

namespace Session

/-- What holds when a layer starts, and is kept by each of its steps, holds of the program that the
layer leaves. -/
theorem compileLayer_induction {s : Session} {source : String} {P : Program → Prop}
    (hs : s.program.Sound) (hstart : P (deepen s.program))
    (hstep : ∀ {items p q}, ReadsAs source items → p.Sound → p.depth = s.program.depth + 1 →
      P p → (s.nextLayer source).Step items p q → P q) :
    P (s.compileLayer source).2.program := by
  rw [program_compileLayer]
  rcases after_compileText s source with h | ⟨items, hitems, h⟩
  · rw [h]
    exact hstart
  · rw [h]
    have hword : ∀ d, .callable d ∈ items → IsWord d.name := fun d hd ↦ hitems.ordered.isWord hd
    have hsteps := Layer.steps_compile (l := s.nextLayer source) hs rfl hword
    -- soundness is carried along, because a step may need it
    have hall : ∀ {q}, Relation.ReflTransGen ((s.nextLayer source).Step items)
        (deepen s.program) q → (q.Sound ∧ q.depth = (s.nextLayer source).depth) ∧ P q := by
      intro q hq
      induction hq with
      | refl => exact ⟨⟨hs.deepen, rfl⟩, hstart⟩
      | tail _ hstep' ih =>
        exact ⟨Layer.keeps_step (Nat.succ_pos _) hword hstep' ih.1,
          hstep hitems ih.1.1 ih.1.2 ih.2 hstep'⟩
    exact (hall hsteps).2

end Session

/-! ## Entries have the names they are kept under -/

def Owner.name : Owner → String
  | .main => mainName
  | .script name => name
  | .function name => name

theorem CallableDecl.name_owner (d : CallableDecl) : d.owner.name = d.name := by
  rw [owner]
  split
  · split
    next hmain => exact hmain.symm
    next => rfl
  · rfl

/-- What is found under a name has that name. -/
structure Program.Named (p : Program) : Prop where
  /-- A global has the name it is found under and is of one of the layers. -/
  globals : ∀ {name g}, p.globals.get? name = some g → g.ident.name = name ∧ g.depth ≤ p.depth
  /-- A callable has the name it is found under. -/
  callables : ∀ {owner c}, p.callable? owner = some c → c.ident.name = owner.name
  /-- A definition has the name it is found under. -/
  defines : ∀ {name d}, p.defines.get? name = some d → d.ident.name = name

namespace Program.Named

variable {l : Layer} {items : List Item} {p q : Program}

theorem empty : Program.empty.Named where
  globals h := nomatch (Table.get?_empty _).symm.trans h
  callables {owner} _ h := nomatch (callable?_empty owner).symm.trans h
  defines h := nomatch (Table.get?_empty _).symm.trans h

theorem deepen (h : p.Named) : (Session.deepen p).Named where
  globals hg := ⟨(h.globals hg).1, (h.globals hg).2.trans (Nat.le_succ _)⟩
  callables {owner c} hc := by
    have hold : p.callable? owner = some c := by cases owner <;> exact hc
    exact h.callables hold
  defines hd := h.defines hd

private theorem declared {i : Item} (h : p.Named) (hdepth : p.depth = l.depth)
    (hi : l.Declared p i q) : q.Named where
  globals {name g} hg := by
    have hq : q.depth = p.depth := by cases hi <;> rfl
    rw [hq]
    rcases hi.globals_cases with heq | ⟨new, pos, -, heq⟩
    · exact h.globals (heq ▸ hg)
    · rw [heq, Table.get?_insert] at hg
      split at hg
      next hname =>
        cases hg
        exact ⟨hname.symm, hdepth.symm.le⟩
      next => exact h.globals hg
  callables {owner c} hc := by
    rcases hi.callable?_cases owner with heq | ⟨d, c', rfl, rfl, hnew, heq⟩
    · exact h.callables (heq ▸ hc)
    · cases hc.symm.trans heq
      rw [hnew.name, d.name_owner]
  defines {name d} hd := by
    rcases hi.defines_cases with heq | ⟨new, e, hname, heq⟩
    · exact h.defines (heq ▸ hd)
    · rw [heq, Table.get?_insert] at hd
      split at hd
      next hkey =>
        cases hd
        exact hname.trans hkey.symm
      next => exact h.defines hd

/-- Names and depths are all that counts here. -/
private theorem sameNames (h : p.Named) (hdepth : q.depth = p.depth) (hq : p.SameNames q) :
    q.Named where
  globals hg := hdepth ▸ h.globals (hq.globals ▸ hg)
  callables {owner c} hc := by
    obtain ⟨c', hc', hbare⟩ := hq.symm.callable_some hc
    rw [← h.callables hc']
    exact congrArg (·.ident.name) hbare.symm
  defines hd := h.defines (hq.defines ▸ hd)

theorem step (h : p.Named) (hdepth : p.depth = l.depth) (hstep : l.Step items p q) : q.Named := by
  cases hstep with
  | declare _ hi => exact h.declared hdepth hi
  | record => exact h.sameNames rfl ⟨rfl, rfl, rfl, rfl, rfl⟩
  | expand htexts =>
    refine ⟨h.globals, fun {owner c} hc ↦ ?_, fun hd ↦ ?_⟩
    · have hold : p.callable? owner = some c := by cases owner <;> exact hc
      exact h.callables hold
    · obtain ⟨old, hold, hreset⟩ := htexts.get? hd
      rw [← h.defines hold]
      exact congrArg (·.ident.name) hreset.symm
  | lower =>
    obtain ⟨root, new, hafter, -⟩ := after_lowerBody l _ _ p
    rw [hafter]
    exact h.sameNames rfl ⟨rfl, rfl, rfl, rfl, rfl⟩
  | @setBody owner _ _ id =>
    have hext : p.Extends l.depth (p.setBody owner id) := Program.extends_setBody
    exact h.sameNames (p.setBody_depth owner id) hext.names

end Program.Named

theorem Session.Reachable.named {s : Session} (h : s.Reachable) : s.program.Named := by
  induction h with
  | new vocabulary entryFile => exact .empty
  | layer hs source ih =>
    exact compileLayer_induction hs.sound ih.deepen fun _ _ hdepth hp hstep ↦ hp.step hdepth hstep

end CharacterScript
