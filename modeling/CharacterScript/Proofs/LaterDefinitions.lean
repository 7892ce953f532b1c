import CharacterScript.Proofs.Inlining
import CharacterScript.Proofs.Interface.Independence
import CharacterScript.Proofs.Redefining.Appending
import CharacterScript.Proofs.Redefining.Layers

/-!
# A definition behind a layer

A definition that is put behind an accepted layer stands behind all of its code, so no code sees it.
Its name is one that nothing mentions and that nothing else has. If the name is new, nothing
changes: the layer is accepted with the definition, and its image is the same.

## A name that is defined already

If an earlier layer has defined the name, there is one entry for it, and the new definition takes
its place before any code is lowered. The image is still the same when the layer is accepted. But
code that looks the name up finds neither the old text nor the new one, and the layer is refused; it
is also refused if the table cannot be expanded without the old text (`later_definition`).

## One definition as an example of all

The definition that is put behind the layer has the text `1`. It mentions no name and reads as a
number, and this is all that matters: what its name stood for before is what the code of the layer
may have used.
-/

namespace CharacterScript

open Running

/-! ## Images

An image has no definitions in it. Programs that differ in their definitions alone have the same
image. -/

namespace Program.Moved

open Image

variable {top : Nat} {place : Offsets} {p q : Program}

theorem scope? (h : p.Moved top place q) (id : ScopeId) :
    (p.scope? id).map Scope.unplaced = (q.scope? id).map Scope.unplaced := by
  have hscopes := congrArg (·[id]?) h.scopes
  simpa [Program.scope?] using hscopes.symm

/-- The names of variables do not show in the bytes of a scope. -/
theorem map_scopeBytes (v : Vocabulary) {x y : Option Scope}
    (h : x.map Scope.unplaced = y.map Scope.unplaced) :
    x.map (scopeBytes v) = y.map (scopeBytes v) := by
  have hbytes := congrArg (Option.map (scopeBytes v)) h
  rwa [Option.map_map, Option.map_map] at hbytes

theorem callableSlot_eq (h : p.Moved top place q) (v : Vocabulary) (depth : Nat) {c c' : Callable}
    (hc : c.Moved c') : callableSlot v p depth c = callableSlot v q depth c' := by
  have hbody : (bodyAt? p depth c).map Scope.unplaced =
      (bodyAt? q depth c').map Scope.unplaced := by
    rw [bodyAt?, bodyAt?, hc.depth, hc.body]
    split
    · cases c.body with
      | none => rfl
      | some id => exact h.scope? id
    · rfl
  have hparams : c.params.length = c'.params.length := by
    simpa using (congrArg List.length hc.params).symm
  exact Layer.callableSlot_congr v hc.name.symm hc.refCount.symm hparams (map_scopeBytes v hbody)

theorem scopeSlot_eq (h : p.Moved top place q) (v : Vocabulary) :
    scopeSlot v p = scopeSlot v q := by
  funext id
  rw [scopeSlot, scopeSlot]
  obtain ⟨hp, hq⟩ | ⟨s, s', hp, hq, hbytes⟩ := both_of_map_eq (map_scopeBytes v (h.scope? id))
  · rw [hp, hq]
  · rw [hp, hq]
    exact congrArg (Except.map some) hbytes

theorem mapM_callableSlot (h : p.Moved top place q) (v : Vocabulary) (depth : Nat)
    {cs cs' : List Callable} (hcs : List.Forall₂ Callable.Moved cs cs') :
    cs.mapM (callableSlot v p depth) = cs'.mapM (callableSlot v q depth) := by
  induction hcs with
  | nil => rfl
  | cons hc _ ih => rw [List.mapM_cons, List.mapM_cons, h.callableSlot_eq v depth hc, ih]

/-- Programs that are the same up to positions have the same images. -/
theorem image_eq (h : p.Moved top place q) (depth : Nat) (v : Vocabulary) :
    image p depth v = image q depth v := by
  have hscripts : scriptSlots v p depth = scriptSlots v q depth := by
    rw [scriptSlots, scriptSlots, h.mapM_callableSlot v depth h.scripts.forall₂_values]
    obtain ⟨hp, hq⟩ | ⟨c, c', hp, hq, hc⟩ := both_of_rel h.main
    · rw [hp, hq]
    · rw [hp, hq]
      dsimp only
      rw [h.callableSlot_eq v depth hc]
  have hfunctions := h.mapM_callableSlot v depth h.functions.forall₂_values
  have hanonymous : p.anonymous depth = q.anonymous depth := by
    rw [Program.anonymous, Program.anonymous, h.pools]
  rw [image, image, hscripts, hfunctions, hanonymous, h.scopeSlot_eq v, h.globals.size]

end Program.Moved

/-! ## The number one -/

theorem exists_one : ∃ ts e, lex "1" = .ok ts ∧ parseExpression "1" ts = .ok e ∧
    startsSigned "1" ts = false ∧ Parser.captured "1" e.span = "1" := by
  obtain ⟨ts, e, hlex, hparse, h⟩ := exists_expression "1"
    (fun ts e ↦ (startsSigned "1" ts, Parser.captured "1" e.span)) (false, "1") (by decide +kernel)
  obtain ⟨hsign, htext⟩ := Prod.mk.inj h
  exact ⟨ts, e, hlex, hparse, hsign, htext⟩

/-- A number mentions no name. -/
theorem containsWord_one {name : String} (h : IsIdentifier name) :
    containsWord "1" name = false := by
  rw [Bool.eq_false_iff, ne_eq, containsWord_iff h.isName]
  intro hname
  have hwords : wordsOf "1" = ["1"] := by decide +kernel
  rw [hwords, List.mem_singleton] at hname
  have hstart := h.start
  rw [hname] at hstart
  exact absurd hstart (by decide)

theorem exists_read_one (name : String) (pos : Position) :
    ∃ x, Expansion.read name pos "1" = .ok x := by
  obtain ⟨ts, e, hlex, hparse, -⟩ := exists_one
  rw [Expansion.read, hlex]
  dsimp only
  rw [hparse]
  exact ⟨_, rfl⟩

/-! ## Layers

The layer with the definition is compiled beside the layer without it, and the two programs differ
in one table from the step on in which the definition is declared. -/

/-- Layers whose items are the same up to places are accepted or refused together. -/
theorem Layer.agree_compile_same {l l' : Layer} {place : Offsets} {items items' : List Item}
    {p q : Program} (hl : l.Same l') (hpq : p.Moved l.depth place q)
    (h : ∀ t, List.Forall₂ (Item.Moves place (Block.Inlined l.depth place t)) items items') :
    Agree (Program.Moved l.depth place) Eq (l.compile items p) (l'.compile items' q) := by
  by_cases hexpands : ∃ declared t, l.declareAll items p = .ok () declared ∧
      Expansion.expandAll declared.defines = .ok () t
  · obtain ⟨declared, t, hdeclared, ht⟩ := hexpands
    refine agree_compile_moved hl hpq (fun hdeclared' ht' ↦ ?_) (h t)
    cases hdeclared.symm.trans hdeclared'
    exact (EStateM.Result.ok.inj (ht'.symm.trans ht)).2
  · exact agree_compile_moved hl hpq (fun hdeclared ht ↦ absurd ⟨_, _, hdeclared, ht⟩ hexpands)
      (h .empty)

/-- The items of an accepted text compile. -/
theorem Session.compile_of_readsAs {s t : Session} {source : String} {items : List Item}
    {depth : Nat}
    (hitems : ReadsAs source items) (h : s.compileLayer source = (.ok depth, t)) :
    depth = (s.nextLayer source).depth ∧
      (s.nextLayer source).compile items (deepen s.program) = .ok () t.program := by
  obtain ⟨hdepth, -, items', hitems', hcompile⟩ := compileLayer_ok h
  obtain rfl := hitems.unique hitems'
  exact ⟨hdepth, hcompile⟩

/-- A text is accepted exactly if its items compile, and then at the next depth. -/
theorem Session.accepted_iff {s : Session} {source : String} {items : List Item}
    (hitems : ReadsAs source items) {depth : Nat} :
    (∃ t, s.compileLayer source = (.ok depth, t)) ↔ depth = (s.nextLayer source).depth ∧
      ∃ u q, (s.nextLayer source).compile items (deepen s.program) = .ok u q := by
  constructor
  · rintro ⟨t, ht⟩
    obtain ⟨hdepth, hcompile⟩ := compile_of_readsAs hitems ht
    exact ⟨hdepth, (), _, hcompile⟩
  · rintro ⟨rfl, u, q, hq⟩
    exact ⟨_, compileLayer_of_readsAs hitems hq⟩

/-- A name that is left over when a layer of these items was compiled: the layer does not define it,
it is not the name of anything else, in the program or in the runtime, and no definition mentions
it. -/
structure Session.LeftOver (s : Session) (items : List Item) (name : String) : Prop where
  /-- The layer does not define it. -/
  own : ∀ i ∈ items, i.declares? ≠ some (name, .define)
  /-- It is declared as nothing else. -/
  free : s.program.declared? name (some .define) = none
  /-- The runtime has no such command. -/
  command : s.vocabulary.command? name = none
  /-- The runtime has no such global. -/
  global : s.vocabulary.global? name = none
  /-- No definition mentions it. -/
  silent : ∀ d ∈ s.program.defines.values, containsWord d.text name = false

instance (s : Session) (items : List Item) (name : String) : Decidable (s.LeftOver items name) :=
  decidable_of_iff
    ((∀ i ∈ items, i.declares? ≠ some (name, .define)) ∧
      s.program.declared? name (some .define) = none ∧ s.vocabulary.command? name = none ∧
      s.vocabulary.global? name = none ∧
      ∀ d ∈ s.program.defines.values, containsWord d.text name = false)
    ⟨fun h ↦ ⟨h.1, h.2.1, h.2.2.1, h.2.2.2.1, h.2.2.2.2⟩,
      fun h ↦ ⟨h.own, h.free, h.command, h.global, h.silent⟩⟩

/-- The number one can be put behind an accepted layer under a name that is left over. -/
theorem Session.LeftOver.allows {s s' : Session} {source : String} {depth : Nat}
    {items : List Item} {d : DefineDecl} (hs : s.Reachable)
    (h : s.compileLayer source = (.ok depth, s')) (hitems : ReadsAs source items)
    (hname : IsIdentifier d.name) (hleft : s'.LeftOver items d.name) (htext : d.text = "1")
    (hbehind : ∀ c, .callable c ∈ items → Before d.span.start c.body.spans) :
    (s.nextLayer source).Allows items d s.program s'.program where
  compiled := (compile_of_readsAs hitems h).2
  sound := hs.sound
  named := hs.named
  depth := rfl
  isWord c hc := hitems.ordered.isWord hc
  isIdentifier := List.forall_mem_cons.2 ⟨hname, (hs.next h).isIdentifier⟩
  own e he heq := hleft.own _ he (heq ▸ rfl)
  free := hleft.free
  reserved := by
    obtain ⟨-, hvocabulary, -⟩ := compileLayer_ok h
    show (s.nextLayer source).reservedAs? d.name = none
    rw [Layer.reservedAs?, show (s.nextLayer source).vocabulary =
      s'.vocabulary from hvocabulary.symm, hleft.command, hleft.global]
    rfl
  silent := hleft.silent
  behind := hbehind
  text other hother := htext ▸ containsWord_one hother
  reads pos := htext ▸ exists_read_one d.name pos

/-- A definition of the number one is put behind a layer that was accepted, under a name that is
left over.

If no earlier layer has defined the name, the layer is accepted again. Otherwise it is accepted
again exactly if no code of it looks the name up and the table can be expanded with the number in
the place of the old text. When it is accepted, it has the depth and the image that it had. -/
theorem later_definition {s s' : Session} {source name : String} {depth : Nat} {items : List Item}
    (hs : s.Reachable) (h : s.compileLayer source = (.ok depth, s')) (hitems : ReadsAs source items)
    (hname : IsIdentifier name) (hleft : s'.LeftOver items name) :
    ((∃ depth' t, s.compileLayer (source ++ "\n" ++ definition name "1") = (.ok depth', t)) ↔
      ∀ old, s'.program.defines.get? name = some old →
        (∀ c, .callable c ∈ items → name ∉ c.body.lookups) ∧
        ∃ u, Expansion.expandAll (s'.program.defines.insert name { old with text := "1" })
          = .ok () u) ∧
    ∀ depth' t, s.compileLayer (source ++ "\n" ++ definition name "1") = (.ok depth', t) →
      depth' = depth ∧ ∀ v, image t.program depth v = image s'.program depth v := by
  obtain ⟨ts, e, hlex, hparse, hsign, hone⟩ := exists_one
  obtain ⟨items', d, hitems', rfl, htext, hbehind, place, hmoves⟩ :=
    exists_readsAs_append hitems hname hlex hparse hsign
  rw [hone] at htext
  obtain ⟨rfl, -⟩ := Session.compile_of_readsAs hitems h
  have hallows := hleft.allows hs h hitems hname htext hbehind
  -- the layer with the definition, read from its own text
  have hold : (Session.deepen s.program).Moved (s.nextLayer source).depth place
      (Session.deepen s.program) :=
    .refl fun d hd ↦ (Nat.lt_succ_of_le (hs.sound.defines d hd)).ne
  have hlayers : (s.nextLayer source).Same
      (s.nextLayer (source ++ "\n" ++ definition d.name "1")) := ⟨rfl, rfl⟩
  have hagree := Layer.agree_compile_same hlayers hold (hmoves _)
  have haccepted : (∃ depth' t, s.compileLayer (source ++ "\n" ++ definition d.name "1")
        = (.ok depth', t)) ↔
      ∃ r, (s.nextLayer source).compile (items ++ [.define d]) (Session.deepen s.program)
        = .ok () r := by
    simp only [Session.accepted_iff hitems', exists_eq_left]
    exact hagree.exists_ok_iff.symm.trans Unique.exists_iff
  refine ⟨?_, fun depth' t ht ↦ ?_⟩
  · rw [haccepted]
    cases hget : s'.program.defines.get? d.name with
    | none =>
      exact iff_of_true (hallows.compile_of_new hget)
        fun _ h ↦ absurd h.symm (Option.some_ne_none _)
    | some old =>
      rw [hallows.compile_of_old hget, htext]
      exact ⟨fun hcan old' hold' ↦ Option.some.inj hold' ▸ hcan, fun hcan ↦ hcan old rfl⟩
  · obtain ⟨rfl, ht'⟩ := Session.compile_of_readsAs hitems' ht
    obtain ⟨r, hr⟩ := haccepted.1 ⟨_, _, ht⟩
    obtain ⟨_, r', hr', -, hmoved⟩ := hagree.ok_of_ok hr
    obtain rfl := (EStateM.Result.ok.inj (hr'.symm.trans ht')).2
    obtain ⟨u, rfl⟩ := hallows.eq_withDefines hr
    exact ⟨rfl, fun v ↦ (hmoved.image_eq _ v).symm⟩

/-! ## A definition that another layer uses -/

namespace Sample

/-- The session behind a base that defines `N`. -/
def based : Session :=
  (start.compileLayer "#define N 5
script main() \x7b \x7d").2

/-- A layer that uses `N`. -/
def printN : String :=
  "script main() \x7b Print(N) \x7d"

/-- The base is accepted, and so is the layer; the names `M` and `N` are left over behind it. With a
definition of `N` it is refused. -/
theorem printN_runs :
    (start.compileLayer "#define N 5
script main() \x7b \x7d").1.toOption = some 1 ∧
      (based.compileLayer printN).1.toOption = some 2 ∧
      (based.compileLayer printN).2.program.defines.get? "M" = none ∧
      (items? printN).all (fun items ↦
        decide ((based.compileLayer printN).2.LeftOver items "M")) = true ∧
      (items? printN).all (fun items ↦
        decide ((based.compileLayer printN).2.LeftOver items "N")) = true ∧
      (based.compileLayer (printN ++ "\n" ++ definition "N" "1")).1.toOption = none := by
  decide +kernel

theorem reachable_based : based.Reachable := by
  have haccepted : start.compileLayer "#define N 5
script main() \x7b \x7d" = (.ok 1, based) := accepted_of_fst printN_runs.1
  exact reachable_start.next haccepted

theorem accepted_printN : based.compileLayer printN = (.ok 2, (based.compileLayer printN).2) :=
  accepted_of_fst printN_runs.2.1

/-- A name that is left over when this is tried is left over. -/
theorem leftOver_printN {items : List Item} (hitems : ReadsAs printN items) {name : String}
    (h : (items? printN).all (fun items ↦
      decide ((based.compileLayer printN).2.LeftOver items name)) = true) :
    (based.compileLayer printN).2.LeftOver items name := by
  rw [items?_of_readsAs hitems] at h
  exact of_decide_eq_true h

end Sample

/-- The base defines `N` and the layer uses it, so the number one can be put behind the layer under
another name. -/
theorem later_definition_sample :
    ∃ s t, Sample.based.compileLayer Sample.printN = (.ok 2, s) ∧
      Sample.based.compileLayer (Sample.printN ++ "\n" ++ definition "M" "1") = (.ok 2, t) ∧
      ∀ v, image t.program 2 v = image s.program 2 v := by
  obtain ⟨-, -, items, hitems, -⟩ := Session.compileLayer_ok Sample.accepted_printN
  obtain ⟨-, -, hnew, hleft, -⟩ := Sample.printN_runs
  have hM : IsIdentifier "M" := by decide
  obtain ⟨haccepted, hsame⟩ := later_definition Sample.reachable_based Sample.accepted_printN hitems
    hM (Sample.leftOver_printN hitems hleft)
  obtain ⟨depth, t, ht⟩ := haccepted.2 fun old hold ↦ by
    rw [hnew] at hold
    cases hold
  obtain ⟨rfl, himage⟩ := hsame depth t ht
  exact ⟨_, t, Sample.accepted_printN, ht, himage⟩

/-- The number one cannot be put behind the layer under the name `N`, which the layer uses: the use
finds no definition any more. -/
theorem later_definition_refused :
    ∃ s items, Sample.based.Reachable ∧ Sample.based.compileLayer Sample.printN = (.ok 2, s) ∧
      ReadsAs Sample.printN items ∧ IsIdentifier "N" ∧ s.LeftOver items "N" ∧
      ∀ depth t, Sample.based.compileLayer (Sample.printN ++ "\n" ++ definition "N" "1")
        ≠ (.ok depth, t) := by
  obtain ⟨-, -, items, hitems, -⟩ := Session.compileLayer_ok Sample.accepted_printN
  obtain ⟨-, -, -, -, hleft, hrefused⟩ := Sample.printN_runs
  refine ⟨_, items, Sample.reachable_based, Sample.accepted_printN, hitems, by decide,
    Sample.leftOver_printN hitems hleft, fun depth t h ↦ ?_⟩
  rw [h] at hrefused
  cases hrefused

end CharacterScript
