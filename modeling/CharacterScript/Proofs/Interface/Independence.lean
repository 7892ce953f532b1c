import CharacterScript.Proofs.Interface.Bodies
import CharacterScript.Proofs.Steps

/-!
# A layer depends on the interface of what is below it

The interface of a program is the names of its globals, functions, scripts and definitions in order,
with the parameters of the callables and the texts of the definitions. A layer compiled on two
programs with one interface compiles on both or on neither, and its image is the same
(`derived_image_independent`): no body, position or leftover of the layers below gets into it.

## One chain of equalities

An interface gives equal views of all tables. With equal views the items are declared in step, the
definitions are expanded to the same, the bodies are lowered to the same scopes, and the image is
written from these. Each step is a module of its own, and here they are put one behind the other.
-/

namespace CharacterScript

open Running

/-! ## Interfaces

An interface can be compared by a program: it consists of names and numbers, in lists. -/

/-- What a call has to know of a callable. -/
structure Signature where
  /-- The names of the parameters. -/
  params : List String
  /-- How many of them are references. -/
  refCount : UInt8
  deriving DecidableEq

def Callable.signature (c : Callable) : Signature :=
  ⟨c.params.map (·.name), c.refCount⟩

/-- What a layer can know of the ones below it. Bodies, positions and depths are not part of it. -/
structure Interface where
  /-- The globals, in the order of their slots. -/
  globals : List String
  /-- The functions, in the order of their ids. -/
  functions : List (String × Signature)
  /-- The scripts, in the order of their ids. -/
  scripts : List (String × Signature)
  /-- The script a program starts with. -/
  main : Option Signature
  /-- The texts as they were written. -/
  defines : List (String × String)
  deriving DecidableEq

def Program.interface (p : Program) : Interface where
  globals := p.globals.names
  functions := p.functions.view Callable.signature
  scripts := p.scripts.view Callable.signature
  main := p.main.map Callable.signature
  defines := p.defines.view Define.text

/-- What is seen of entries can be told from their names and from something else seen of them. -/
theorem Table.view_eq_map {α β γ : Type} {t : Table α} {f : α → β} {g : α → γ}
    (k : String → γ → β) (h : ∀ name a, t.get? name = some a → f a = k name (g a)) :
    t.view f = (t.view g).map fun e ↦ (e.1, k e.1 e.2) := by
  rw [view, view, List.map_map]
  refine List.map_congr_left ?_
  rintro ⟨name, a⟩ hmem
  rw [h name a (mem_toList_iff_get?.1 hmem)]
  rfl

namespace Layer

variable {l : Layer} {p q : Program}

/-- How a layer sees a callable of a layer below it. -/
def CallableView.below (name : String) (s : Signature) : CallableView :=
  ⟨name, false, s.params, s.refCount⟩

/-- How a layer sees a definition of a layer below it, before it is expanded. -/
def DefineView.below (name text : String) : DefineView :=
  ⟨name, false, text, fun _ ↦ true, none⟩

/-! ### What a layer sees of the layers below it -/

section

variable (hp : p.Sound) (hnamed : p.Named) (hdepth : p.depth < l.depth)

include hnamed hdepth

theorem view_globals : p.globals.view l.viewGlobal
    = p.interface.globals.map fun name ↦ (name, ⟨name, false⟩) := by
  rw [Table.view_eq_map (g := fun _ ↦ ()) (fun name _ ↦ ⟨name, false⟩)]
  · simp [Program.interface, Table.names, Table.view]
  · intro name g hg
    obtain ⟨hname, hle⟩ := hnamed.globals hg
    have hne : g.depth ≠ l.depth := by omega
    simp [viewGlobal, hname, hne]

include hp

theorem viewCallable_below (owner : Owner) {c : Callable} (hc : p.callable? owner = some c) :
    l.viewCallable c = .below owner.name c.signature := by
  have hle := (hp.callable hc).depth_le
  have hne : c.depth ≠ l.depth := by omega
  simp [viewCallable, CallableView.below, Callable.signature, hnamed.callables hc, hne]

theorem view_functions : p.functions.view l.viewCallable
    = p.interface.functions.map fun e ↦ (e.1, .below e.1 e.2) :=
  Table.view_eq_map CallableView.below fun name _ hc ↦
    viewCallable_below hp hnamed hdepth (.function name) hc

theorem view_scripts : p.scripts.view l.viewCallable
    = p.interface.scripts.map fun e ↦ (e.1, .below e.1 e.2) :=
  Table.view_eq_map CallableView.below fun name _ hc ↦
    viewCallable_below hp hnamed hdepth (.script name) hc

theorem view_main : p.main.map l.viewCallable = p.interface.main.map (.below mainName) := by
  rw [Program.interface, Option.map_map]
  cases hc : p.main with
  | none => rfl
  | some c =>
    have hview := viewCallable_below hp hnamed hdepth .main hc
    simp [hview, Owner.name]

theorem view_defines : p.defines.view (l.viewDefine ∘ Define.reset)
    = p.interface.defines.map fun e ↦ (e.1, .below e.1 e.2) := by
  refine Table.view_eq_map DefineView.below fun name d hd ↦ ?_
  have hle : d.depth ≤ p.depth := hp.defines d (Table.mem_values_iff.2 ⟨name, hd⟩)
  have hlt : d.depth < l.depth := by omega
  have hne : d.depth ≠ l.depth := by omega
  have hvisible : d.reset.visibleFrom l.depth = fun _ ↦ true := by
    funext offset
    simp [Define.visibleFrom, Define.reset, hlt]
  show DefineView.mk d.ident.name (decide (d.depth = l.depth)) d.text
    (d.reset.visibleFrom l.depth) none = .below name d.text
  rw [hvisible, hnamed.defines hd, decide_eq_false hne]
  rfl

omit hnamed

theorem blocks_below : p.blocks l.depth = [] := by
  rw [Program.blocks, List.map_eq_nil_iff, List.filter_eq_nil_iff]
  intro s hs
  obtain ⟨id, hid⟩ := List.mem_iff_getElem?.1 hs
  have hscope : p.scope? id = some s := by simpa [Program.scope?] using hid
  have hle := (hp.depths hscope).2
  have hne : s.depth ≠ l.depth := by omega
  simp [hne]

theorem bodySeen_below (owner : Owner) : p.bodySeen l.depth owner = none := by
  rw [Program.bodySeen]
  cases hc : p.callable? owner with
  | none => rfl
  | some c =>
    have hle := (hp.callable hc).depth_le
    have hne : c.depth ≠ l.depth := by omega
    rw [Option.bind_some, Image.bodyAt?, if_neg hne]

end

/-- Programs with one interface are alike to a layer above them. -/
theorem alike_of_interface (hp : p.Sound ∧ p.Named) (hq : q.Sound ∧ q.Named)
    (hpdepth : p.depth < l.depth) (hqdepth : q.depth < l.depth) (h : p.interface = q.interface) :
    l.Alike p q where
  globals := by
    rw [view_globals hp.2 hpdepth, view_globals hq.2 hqdepth, h]
  functions := by
    rw [view_functions hp.1 hp.2 hpdepth, view_functions hq.1 hq.2 hqdepth, h]
  scripts := by
    rw [view_scripts hp.1 hp.2 hpdepth, view_scripts hq.1 hq.2 hqdepth, h]
  main := by
    rw [view_main hp.1 hp.2 hpdepth, view_main hq.1 hq.2 hqdepth, h]
  defines := by
    rw [view_defines hp.1 hp.2 hpdepth, view_defines hq.1 hq.2 hqdepth, h]
  blocks := by
    rw [blocks_below hp.1 hpdepth, blocks_below hq.1 hqdepth]
  bodies owner := by
    rw [bodySeen_below hp.1 hpdepth, bodySeen_below hq.1 hqdepth]

/-! ## One layer -/

theorem SameDefines.reset {t u : Table Define} (h : l.SameDefines t u) :
    t.view (l.viewDefine ∘ Define.reset) = u.view (l.viewDefine ∘ Define.reset) := by
  have hreset := congrArg (List.map fun e : String × DefineView ↦
    (e.1, { e.2 with expansion := none })) h
  simp only [Table.view, List.map_map] at hreset
  exact hreset

/-- The bodies to lower are those of the items whose callables look new. -/
theorem SameTables.toLower_eq (h : l.SameTables p q) (items : List Item) :
    l.toLower p items = l.toLower q items := by
  have hcurrent : ∀ {t u : Table Callable} (bodies : Table Block),
      t.view l.viewCallable = u.view l.viewCallable → l.current t bodies = l.current u bodies := by
    intro t u bodies hview
    have hseen : ∀ t : Table Callable, l.current t bodies
        = (t.view l.viewCallable).filterMap fun e ↦
            if e.2.isNew then (bodies.get? e.1).map (e.1, ·) else none := by
      intro t
      rw [Table.view, List.filterMap_map]
      simp [current, viewCallable, Function.comp_def]
    rw [hseen, hseen, hview]
  rw [toLower, toLower, hcurrent _ h.functions, hcurrent _ h.scripts]

/-- Expanding the definitions makes programs ready for the bodies. -/
theorem agree_onDefines (h : l.Alike p q) (hp : p.Sound ∧ p.depth = l.depth)
    (hq : q.Sound ∧ q.depth = l.depth) :
    Agree l.Ready Eq (onDefines Expansion.expandAll p) (onDefines Expansion.expandAll q) := by
  have hagree := Expansion.agree_expandAll h.defines
  have hkeeps := keeps_expandAll p hp
  have hkeeps' := keeps_expandAll q hq
  rw [after_onDefines] at hkeeps hkeeps'
  rw [onDefines, onDefines]
  cases hrun : Expansion.expandAll p.defines with
  | error e t =>
    obtain ⟨e', u, hrun', hcode⟩ := hagree.error_of_error hrun
    rw [hrun']
    exact hcode
  | ok _ t =>
    obtain ⟨_, u, hrun', -, hsame⟩ := hagree.ok_of_ok hrun
    rw [after_of_ok hrun] at hkeeps
    rw [after_of_ok hrun'] at hkeeps'
    rw [hrun']
    have hbodies : ∀ (r : Program) (t : Table Define) (owner : Owner),
        ({ r with defines := t } : Program).bodySeen l.depth owner = r.bodySeen l.depth owner := by
      intro r t owner
      cases owner <;> rfl
    refine ⟨rfl, ⟨{ h.toSameTables with defines := hsame.reset }, h.blocks, fun owner ↦ ?_⟩, hsame,
      hkeeps, hkeeps'⟩
    rw [hbodies, hbodies]
    exact h.bodies owner

/-- A layer compiles on both programs or fails alike on both. -/
theorem agree_compile (hl : 0 < l.depth) {items : List Item}
    (hword : ∀ d, .callable d ∈ items → IsWord d.name) (h : l.Alike p q)
    (hp : p.Sound ∧ p.depth = l.depth) (hq : q.Sound ∧ q.depth = l.depth) :
    Agree l.Ready Eq (l.compile items p) (l.compile items q) := by
  rw [compile_eq]
  refine (matches_declareAll items p q h).bind fun _ _ p₁ q₁ hp₁ hq₁ _ h₁ ↦ ?_
  have hkeeps := keeps_declareAll items p hword hp
  have hkeeps' := keeps_declareAll items q hword hq
  rw [after_of_ok hp₁] at hkeeps
  rw [after_of_ok hq₁] at hkeeps'
  rw [modify_bind, modify_bind, get_bind, get_bind]
  have hexpand := agree_onDefines
    (p := { p₁ with layers := p₁.layers.push (l.info items) })
    (q := { q₁ with layers := q₁.layers.push (l.info items) })
    { h₁ with } ⟨{ hkeeps.1 with }, hkeeps.2⟩ ⟨{ hkeeps'.1 with }, hkeeps'.2⟩
  obtain ⟨hmain, hmain'⟩ | ⟨c, c', hmain, hmain', -⟩ := both_of_map_eq h₁.main
  · rw [if_pos (Option.isNone_iff_eq_none.2 hmain), if_pos (Option.isNone_iff_eq_none.2 hmain')]
    rfl
  · rw [if_neg (by simp [hmain]), if_neg (by simp [hmain'])]
    refine hexpand.bind fun _ _ p₂ q₂ _ _ _ h₂ ↦ ?_
    rw [get_bind, get_bind, h₂.toLower_eq]
    exact matches_lowerAll hl _ _ _ h₂

/-! ## Images

The image of a layer has callables and scopes of its depth. All that is written for them comes
from what the layer has added, and this is the same up to ids that are not written. -/

open Image

/-- The slot of a callable shows its name, its numbers of parameters, and the bytes of its body. -/
theorem callableSlot_congr (v : Vocabulary) {depth : Nat} {c c' : Callable}
    (hname : c.ident.name = c'.ident.name) (hrefs : c.refCount = c'.refCount)
    (hparams : c.params.length = c'.params.length)
    (hbody : (bodyAt? p depth c).map (scopeBytes v) = (bodyAt? q depth c').map (scopeBytes v)) :
    callableSlot v p depth c = callableSlot v q depth c' := by
  rw [callableSlot, callableSlot]
  obtain ⟨hp, hq⟩ | ⟨s, s', hp, hq, hscope⟩ := both_of_map_eq hbody
  · rw [hp, hq]
  · have hbytes : callableBytes v c s = callableBytes v c' s' := by
      simp only [callableBytes, hname, hrefs, hparams, hscope]
    rw [hp, hq]
    exact congrArg (Except.map some) hbytes

theorem callableSlot_of_view (v : Vocabulary) {c c' : Callable}
    (hview : l.viewCallable c = l.viewCallable c')
    (hbody : (bodyAt? p l.depth c).map Scope.unlinked = (bodyAt? q l.depth c').map Scope.unlinked) :
    callableSlot v p l.depth c = callableSlot v q l.depth c' := by
  have hparams : c.params.length = c'.params.length := by
    simpa [viewCallable] using congrArg (List.length ∘ CallableView.params) hview
  have hbytes := congrArg (Option.map (scopeBytes v)) hbody
  rw [Option.map_map, Option.map_map] at hbytes
  exact callableSlot_congr v (congrArg CallableView.name hview)
    (congrArg CallableView.refCount hview) hparams hbytes

/-- The slots of a table of callables whose bodies are alike. -/
private theorem mapM_callableSlot (v : Vocabulary) {t u : Table Callable}
    (h : t.view l.viewCallable = u.view l.viewCallable)
    (hbodies : ∀ {name c c'}, t.get? name = some c → u.get? name = some c' →
      (bodyAt? p l.depth c).map Scope.unlinked = (bodyAt? q l.depth c').map Scope.unlinked) :
    t.values.mapM (callableSlot v p l.depth) = u.values.mapM (callableSlot v q l.depth) := by
  have hmap : t.values.map (callableSlot v p l.depth)
      = u.values.map (callableSlot v q l.depth) := by
    apply List.ext_getElem?
    intro i
    simp only [Table.values, Table.toList, List.getElem?_map, Array.getElem?_toList]
    show ((t.at? i).map _).map _ = ((u.at? i).map _).map _
    obtain ⟨ht, hu⟩ | ⟨name, c, c', ht, hu, hview⟩ := Table.at?_cases_of_view h i
    · rw [ht, hu]
      rfl
    · rw [ht, hu]
      exact congrArg some (callableSlot_of_view v hview
        (hbodies (Table.get?_eq_some_iff.2 ⟨i, ht⟩) (Table.get?_eq_some_iff.2 ⟨i, hu⟩)))
  have hid : ∀ {r : Program} (cs : List Callable), cs.mapM (callableSlot v r l.depth)
      = (cs.map (callableSlot v r l.depth)).mapM id := by
    intro r cs
    rw [List.mapM_map]
    rfl
  rw [hid, hid, hmap]

/-- What stands in the slot of a scope without ids. -/
private def slotOf (v : Vocabulary) : Option Scope → Except ImageError (Option (List UInt8))
  | none => .ok none
  | some s => (scopeBytes v s).map some

/-- The slots of the anonymous scopes, from what the ids lead to. -/
private theorem mapM_scopeSlot (v : Vocabulary) (hp : p.Sound) (depth : Nat) :
    (p.anonymous depth).toList.mapM (scopeSlot v p)
      = ((p.blocks depth).map some).mapM (slotOf v) := by
  have hslot : scopeSlot v p = fun id ↦ slotOf v ((p.scope? id).map Scope.unlinked) := by
    funext id
    rw [scopeSlot]
    cases p.scope? id <;> rfl
  rw [hslot, ← hp.map_anonymous, List.mapM_map]
  rfl

theorem Alike.bodyAt? (h : l.Alike p q) (owner : Owner) {c c' : Callable}
    (hc : p.callable? owner = some c) (hc' : q.callable? owner = some c') :
    (Image.bodyAt? p l.depth c).map Scope.unlinked
      = (Image.bodyAt? q l.depth c').map Scope.unlinked := by
  have hbody := h.bodies owner
  rwa [Program.bodySeen, Program.bodySeen, hc, hc'] at hbody

theorem Alike.scriptSlots (h : l.Alike p q) (v : Vocabulary) :
    Image.scriptSlots v p l.depth = Image.scriptSlots v q l.depth := by
  rw [Image.scriptSlots, Image.scriptSlots,
    mapM_callableSlot v h.scripts fun {name} _ _ hc hc' ↦ h.bodyAt? (.script name) hc hc']
  obtain ⟨hp, hq⟩ | ⟨c, c', hp, hq, hview⟩ := both_of_map_eq h.main
  · rw [hp, hq]
  · rw [hp, hq]
    dsimp only
    rw [callableSlot_of_view v hview (h.bodyAt? .main hp hq)]

/-- The image of a layer shows no more than what the layer itself has added. -/
theorem Alike.image_eq (h : l.Alike p q) (hp : p.Sound) (hq : q.Sound) (v : Vocabulary) :
    image p l.depth v = image q l.depth v := by
  have hfunctions := mapM_callableSlot v h.functions fun {name} _ _ hc hc' ↦
    h.bodyAt? (.function name) hc hc'
  rw [image, image, h.scriptSlots, hfunctions, mapM_scopeSlot v hp, mapM_scopeSlot v hq, h.blocks,
    Table.size_of_view h.globals]

end Layer

/-! ## Sessions -/

theorem Layer.Alike.deepen {l : Layer} {p q : Program} (h : l.Alike p q) :
    l.Alike (Session.deepen p) (Session.deepen q) := by
  have hbodies : ∀ (r : Program) (owner : Owner),
      (Session.deepen r).bodySeen l.depth owner = r.bodySeen l.depth owner := by
    intro r owner
    cases owner <;> rfl
  refine ⟨{ h.toSameTables with }, h.blocks, fun owner ↦ ?_⟩
  rw [hbodies, hbodies]
  exact h.bodies owner

namespace Session

/-- Two sessions with which the next layer is compiled in the same way. -/
structure Interchangeable (s t : Session) : Prop where
  /-- The runtime provides the same. -/
  vocabulary : s.vocabulary = t.vocabulary
  /-- Path directives count in the same file. -/
  entryFile : s.entryFile = t.entryFile
  /-- As many layers have been compiled. -/
  depth : s.program.depth = t.program.depth
  /-- The layers so far have the same interface. -/
  interface : s.program.interface = t.program.interface

variable {s t : Session}

theorem agree_compileText (hs : s.Reachable) (ht : t.Reachable) (h : s.Interchangeable t)
    (source : String) :
    Agree (s.nextLayer source).Ready Eq
      (compileText s.vocabulary s.entryFile source (deepen s.program))
      (compileText t.vocabulary t.entryFile source (deepen t.program)) := by
  have hlayer : s.nextLayer source = t.nextLayer source := by
    rw [nextLayer, nextLayer, h.vocabulary, h.entryFile, h.depth]
  rw [compileText, compileText]
  dsimp only
  cases hlex : lex source with
  | error e => exact rfl
  | ok ts =>
    dsimp only
    cases hparse : parseFile source ts with
    | error e => exact rfl
    | ok items =>
      have hitems : ReadsAs source items := ⟨ts, hlex, hparse⟩
      have hdepth : t.program.depth < (s.nextLayer source).depth :=
        h.depth ▸ Nat.lt_succ_self s.program.depth
      have halike := Layer.alike_of_interface (l := s.nextLayer source) ⟨hs.sound, hs.named⟩
        ⟨ht.sound, ht.named⟩ (Nat.lt_succ_self _) hdepth h.interface
      have hdeep : (deepen t.program).depth = (s.nextLayer source).depth :=
        congrArg (· + 1) h.depth.symm
      have hagree := Layer.agree_compile (Nat.succ_pos _) (fun d hd ↦ hitems.ordered.isWord hd)
        halike.deepen ⟨hs.sound.deepen, rfl⟩ ⟨ht.sound.deepen, hdeep⟩
      show Agree _ _ ((s.nextLayer source).compile items _) ((t.nextLayer source).compile items _)
      rw [← hlayer]
      exact hagree

/-- The next layer is accepted after both sessions, with one image, or refused after both. -/
theorem compileLayer_alike (hs : s.Reachable) (ht : t.Reachable) (h : s.Interchangeable t)
    (source : String) {depth : Nat} (hdepth : depth = s.program.depth + 1) :
    (∃ s' t', s.compileLayer source = (.ok depth, s') ∧ t.compileLayer source = (.ok depth, t') ∧
        ∀ v, image s'.program depth v = image t'.program depth v) ∨
      ∃ e e' s' t', s.compileLayer source = (.error e, s') ∧
        t.compileLayer source = (.error e', t') ∧ e.code = e'.code := by
  subst hdepth
  have hagree := agree_compileText hs ht h source
  have hdepth : (deepen t.program).depth = s.program.depth + 1 := congrArg (· + 1) h.depth.symm
  rw [compileLayer, compileLayer, hdepth]
  cases hp : compileText s.vocabulary s.entryFile source (deepen s.program) with
  | ok u p =>
    obtain ⟨u', q, hq, -, hready⟩ := hagree.ok_of_ok hp
    rw [hq]
    exact .inl ⟨_, _, rfl, rfl, hready.image_eq hready.left.1 hready.right.1⟩
  | error e p =>
    obtain ⟨e', q, hq, hcode⟩ := hagree.error_of_error hp
    rw [hq]
    exact .inr ⟨e, e', _, _, rfl, rfl, hcode⟩

end Session

/-- A layer on top of a base is compiled in the same way and has the same image on top of any other
base with the same interface. -/
theorem derived_image_independent {v : Vocabulary} {entryFile : Option String}
    {base base' : String} {s s' : Session}
    (hs : (Session.new v entryFile).compileLayer base = (.ok 1, s))
    (hs' : (Session.new v entryFile).compileLayer base' = (.ok 1, s'))
    (hinterface : s.program.interface = s'.program.interface) (derived : String) :
    (∃ t t', s.compileLayer derived = (.ok 2, t) ∧ s'.compileLayer derived = (.ok 2, t') ∧
        ∀ w : Vocabulary, image t.program 2 w = image t'.program 2 w) ∨
      ∃ e e' t t', s.compileLayer derived = (.error e, t) ∧
        s'.compileLayer derived = (.error e', t') ∧ e.code = e'.code := by
  have hnew : (Session.new v entryFile).Reachable := .new v entryFile
  have hdepth : ∀ {base s}, (Session.new v entryFile).compileLayer base = (.ok 1, s) →
      s.program.depth = 1 := by
    intro base s hs
    have hkeeps := (Session.keeps_compileLayer hnew.sound base).2
    rw [hs] at hkeeps
    exact hkeeps
  have hsettings : ∀ {base s}, (Session.new v entryFile).compileLayer base = (.ok 1, s) →
      s.vocabulary = v ∧ s.entryFile = entryFile := by
    intro base s hs
    have hkept := (Session.new v entryFile).settings_compileLayer base
    rw [hs] at hkept
    exact hkept
  have hsame : s.Interchangeable s' :=
    { vocabulary := (hsettings hs).1.trans (hsettings hs').1.symm
      entryFile := (hsettings hs).2.trans (hsettings hs').2.symm
      depth := (hdepth hs).trans (hdepth hs').symm
      interface := hinterface }
  exact Session.compileLayer_alike (hnew.next hs) (hnew.next hs') hsame derived
    (by rw [hdepth hs])

namespace Sample

def interface : Interface where
  globals := ["g"]
  functions := [("add", ⟨["r", "n"], 1⟩)]
  scripts := []
  main := some ⟨[], 0⟩
  defines := [("LIMIT", "g + 3")]

/-- Another base with the interface of `source` and other bodies. -/
def otherSource : String :=
  "global g
#define LIMIT g + 3
fn add(&r, n) \x7b loop \x7b if n > r \x7b r -= n \x7d break \x7d \x7d
script main() \x7b Print(LIMIT) \x7d"

/-- A layer with a function and a `main` of its own. -/
def derivedSource : String :=
  "fn twice(&r) \x7b add(r, g) loop \x7b add(r, LIMIT) break \x7d \x7d
script main() \x7b twice(g) \x7d"

end Sample

/-- The bases have different numbers of blocks, and the layer is accepted on top of both. -/
theorem derived_image_independent_sample : ∃ s s',
    Sample.start.compileLayer Sample.source = (.ok 1, s) ∧
    Sample.start.compileLayer Sample.otherSource = (.ok 1, s') ∧
    s.program.interface = s'.program.interface ∧
    (s.program.anonymous 1).size = 3 ∧ (s'.program.anonymous 1).size = 2 ∧
    ∃ t t', s.compileLayer Sample.derivedSource = (.ok 2, t) ∧
      s'.compileLayer Sample.derivedSource = (.ok 2, t') ∧
      ∀ w, image t.program 2 w = image t'.program 2 w := by
  obtain ⟨s, hs⟩ := Sample.accepted
  have hbase : (Sample.start.compileLayer Sample.source).2 = s := by rw [hs]
  obtain ⟨hsource, hblocks, haccepted⟩ : s.program.interface = Sample.interface ∧
      (s.program.anonymous 1).size = 3 ∧
      ((s.compileLayer Sample.derivedSource).1.toOption).isSome = true := by
    rw [← hbase]
    decide +kernel
  obtain ⟨hother, hsource', hblocks'⟩ :
      (Sample.start.compileLayer Sample.otherSource).1.toOption = some 1 ∧
      (Sample.start.compileLayer Sample.otherSource).2.program.interface = Sample.interface ∧
      ((Sample.start.compileLayer Sample.otherSource).2.program.anonymous 1).size = 2 := by
    decide +kernel
  obtain ⟨s', hs'⟩ := Sample.accepted_of_toOption Sample.otherSource hother
  rw [hs'] at hsource' hblocks'
  have hinterface := hsource.trans hsource'.symm
  refine ⟨s, s', hs, hs', hinterface, hblocks, hblocks', ?_⟩
  rcases derived_image_independent hs hs' hinterface Sample.derivedSource with
    hboth | ⟨e, _, t, _, he, -⟩
  · exact hboth
  · rw [he] at haccepted
    exact absurd haccepted Bool.false_ne_true

end CharacterScript
