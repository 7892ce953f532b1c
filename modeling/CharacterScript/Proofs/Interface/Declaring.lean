import CharacterScript.Image
import CharacterScript.Proofs.Declaring
import CharacterScript.Proofs.Interface.Agreement

/-!
# Declaring a layer on two programs

A layer sees little of what earlier layers have left: the order of the names, the names of the
parameters and how many of them are references, the texts of definitions, and of each entry whether
it is of the layer itself. Positions, bodies and depths of earlier layers do not count. Two programs
are `Layer.Alike` if they look the same in this way and what the layer itself has added to them is
the same, up to the ids of scopes.

Declaring an item is refused for the same reason on programs that are alike, or keeps them alike.

## Views

What is seen of an entry is a value of a type of its own, `GlobalView` and the others. Whether an
entry is new is part of it, since an entry of an earlier layer may be declared again and one of
the same layer may not; its depth is not. A definition of an earlier layer is seen everywhere, so
of its offset only that is kept.
-/

namespace CharacterScript

open Running

/-- A scope without the id of the scope it is nested in. -/
def Scope.unlinked (s : Scope) : Scope :=
  { s with parent := s.parent.map fun _ ↦ 0 }

namespace Program

/-- The anonymous scopes of a layer, without ids. -/
def blocks (p : Program) (depth : Nat) : List Scope :=
  (p.scopes.toList.filter fun s ↦ s.depth == depth && s.parent.isSome).map Scope.unlinked

/-- The scope of a callable that was compiled in the layer. -/
def bodySeen (p : Program) (depth : Nat) (owner : Owner) : Option Scope :=
  (p.callable? owner).bind (Image.bodyAt? p depth)

end Program

/-- Programs in which the same names are taken. -/
structure Program.SameTaken (p q : Program) : Prop where
  /-- The globals have the same names. -/
  globals : p.globals.names = q.globals.names
  /-- The functions have the same names. -/
  functions : p.functions.names = q.functions.names
  /-- The scripts have the same names. -/
  scripts : p.scripts.names = q.scripts.names
  /-- The definitions have the same names. -/
  defines : p.defines.names = q.defines.names
  /-- Both have the script a program starts with, or neither has it. -/
  main : p.main.map (·.ident.name) = q.main.map (·.ident.name)

namespace Program.SameTaken

variable {p q : Program} (h : p.SameTaken q)

include h

theorem mainNamed?_isSome (name : String) :
    (p.mainNamed? name).isSome = (q.mainNamed? name).isSome := by
  have hfilter : ∀ r : Program, (r.mainNamed? name).isSome
      = (r.main.map (·.ident.name)).any (· == name) := by
    intro r
    rw [Program.mainNamed?]
    cases r.main with
    | none => rfl
    | some c => simp [Option.isSome_filter]
  rw [hfilter, hfilter, h.main]

theorem declaredAs?_isSome (name : String) (kind : Program.Kind) :
    (p.declaredAs? name kind).isSome = (q.declaredAs? name kind).isSome := by
  have hglobals := Table.isSome_get?_of_names h.globals name
  have hfunctions := Table.isSome_get?_of_names h.functions name
  have hscripts := Table.isSome_get?_of_names h.scripts name
  have hdefines := Table.isSome_get?_of_names h.defines name
  cases kind <;> simp [Program.declaredAs?, Option.isSome_or, hglobals, hfunctions, hscripts,
    hdefines, h.mainNamed?_isSome name]

theorem declared?_isSome (name : String) (skip : Option Program.Kind) :
    (p.declared? name skip).isSome = (q.declared? name skip).isSome := by
  rw [Bool.eq_iff_iff, Program.declared?, Program.declared?, List.findSome?_isSome_iff,
    List.findSome?_isSome_iff]
  refine exists_congr fun kind ↦ and_congr_right fun _ ↦ ?_
  split
  · exact Iff.rfl
  · rw [h.declaredAs?_isSome name kind]

end Program.SameTaken

namespace Layer

/-! ## What a layer sees -/

/-- What a layer can see of a global. -/
structure GlobalView where
  /-- The name. -/
  name : String
  /-- Whether this layer declared it. -/
  isNew : Bool

/-- What a layer can see of a callable. -/
structure CallableView where
  /-- The name. -/
  name : String
  /-- Whether this layer declared it. -/
  isNew : Bool
  /-- The names of the parameters. -/
  params : List String
  /-- How many of them are references. -/
  refCount : UInt8

/-- What a layer can see of a definition. -/
structure DefineView where
  /-- The name. -/
  name : String
  /-- Whether this layer wrote it. -/
  isNew : Bool
  /-- The body as it was written. -/
  text : String
  /-- The offsets in the layer that see it. -/
  visibleFrom : Nat → Bool
  /-- What the body expands to. -/
  expansion : Option Expansion

variable (l : Layer)

def viewGlobal (g : GlobalVar) : GlobalView :=
  ⟨g.ident.name, g.depth = l.depth⟩

def viewCallable (c : Callable) : CallableView :=
  ⟨c.ident.name, c.depth = l.depth, c.params.map (·.name), c.refCount⟩

def viewDefine (d : Define) : DefineView :=
  ⟨d.ident.name, d.depth = l.depth, d.text, d.visibleFrom l.depth, d.expansion⟩

/-- Programs that a layer cannot tell apart while it declares its items: expansions do not count
then. -/
structure SameTables (p q : Program) : Prop where
  /-- The globals look the same. -/
  globals : p.globals.view l.viewGlobal = q.globals.view l.viewGlobal
  /-- The functions look the same. -/
  functions : p.functions.view l.viewCallable = q.functions.view l.viewCallable
  /-- The scripts look the same. -/
  scripts : p.scripts.view l.viewCallable = q.scripts.view l.viewCallable
  /-- So does the script a program starts with. -/
  main : p.main.map l.viewCallable = q.main.map l.viewCallable
  /-- The definitions look the same before they are expanded. -/
  defines : p.defines.view (l.viewDefine ∘ Define.reset)
    = q.defines.view (l.viewDefine ∘ Define.reset)

/-- Programs that a layer cannot tell apart and to which it has added the same. -/
structure Alike (p q : Program) : Prop extends l.SameTables p q where
  /-- The pools of the layer have the same blocks. -/
  blocks : p.blocks l.depth = q.blocks l.depth
  /-- The callables of the layer have the same bodies. -/
  bodies : ∀ owner, (p.bodySeen l.depth owner).map Scope.unlinked
    = (q.bodySeen l.depth owner).map Scope.unlinked

variable {l} {p q : Program}

/-! ## Questions have the same answers

The questions are asked of tables and answered by names, parameters and newness, all of which are
in the views. -/

private theorem isNew_of_view {α β : Type} {view : α → β} (isNew : β → Bool) (depth : α → Nat)
    (hview : ∀ a, isNew (view a) = decide (depth a = l.depth)) {x y : Option α}
    (h : x.map view = y.map view) :
    x.map (fun a ↦ decide (depth a = l.depth)) = y.map fun a ↦ decide (depth a = l.depth) := by
  have hnew := congrArg (Option.map isNew) h
  simpa [Function.comp_def, hview] using hnew

theorem isSome_of_view {α β : Type} {view : α → β} {x y : Option α}
    (h : x.map view = y.map view) : x.isSome = y.isSome := by
  rw [← Option.isSome_map, h, Option.isSome_map]

theorem both_of_isSome {α : Type} {x y : Option α} (h : x.isSome = y.isSome) :
    (x = none ∧ y = none) ∨ ∃ a b, x = some a ∧ y = some b := by
  cases x <;> cases y <;> simp at h ⊢

namespace SameTables

variable (h : l.SameTables p q)

include h

theorem sameTaken : p.SameTaken q where
  globals := Table.names_of_view h.globals
  functions := Table.names_of_view h.functions
  scripts := Table.names_of_view h.scripts
  defines := Table.names_of_view h.defines
  main := by
    have hname := congrArg (Option.map CallableView.name) h.main
    simpa [Function.comp_def, viewCallable] using hname

theorem declared?_isSome (name : String) (skip : Option Program.Kind) :
    (p.declared? name skip).isSome = (q.declared? name skip).isSome :=
  h.sameTaken.declared?_isSome name skip

theorem checkName (name : String) (kind : Program.Kind) (pos : Position)
    (existing existing' : Option (Identifier × Nat))
    (hexisting : existing.map (fun e ↦ decide (e.2 = l.depth))
      = existing'.map fun e ↦ decide (e.2 = l.depth)) :
    coded (l.checkName p name kind pos existing)
      = coded (l.checkName q name kind pos existing') := by
  unfold Layer.checkName
  obtain ⟨hp, hq⟩ | ⟨other, other', hp, hq⟩ :=
    both_of_isSome (h.declared?_isSome name (some kind))
  · rw [hp, hq]
    dsimp only
    split
    · rfl
    · cases existing with
      | none => rw [Option.map_eq_none_iff.1 hexisting.symm]
      | some e =>
        obtain ⟨e', rfl, he⟩ := Option.map_eq_some_iff.1 hexisting.symm
        dsimp only
        by_cases hnew : e.2 = l.depth
        · have hnew' : e'.2 = l.depth := by simpa [hnew] using he
          rw [if_pos hnew, if_pos hnew']
          rfl
        · have hnew' : e'.2 ≠ l.depth := by simpa [hnew] using he
          rw [if_neg hnew, if_neg hnew']
  · rw [hp, hq]
    rfl

theorem newGlobal (name : String) (span : Span) :
    coded (l.newGlobal name span p) = coded (l.newGlobal name span q) := by
  have hget := Table.get?_of_view h.globals name
  have hnew := isNew_of_view GlobalView.isNew GlobalVar.depth (fun _ ↦ rfl) hget
  rw [Layer.newGlobal, Layer.newGlobal]
  refine coded_bind (h.checkName _ _ _ _ _ ?_) fun _ ↦ ?_
  · simpa [Function.comp_def] using hnew
  · obtain ⟨hp, hq⟩ | ⟨g, g', hp, hq, -⟩ := both_of_map_eq hget
    all_goals rw [hp, hq]

theorem newDefine (d : DefineDecl) : coded (l.newDefine d p) = coded (l.newDefine d q) := by
  have hnew := isNew_of_view DefineView.isNew Define.depth (fun _ ↦ rfl)
    (Table.get?_of_view h.defines d.name)
  refine coded_bind (h.checkName _ _ _ _ _ ?_) fun _ ↦ rfl
  simpa [Function.comp_def] using hnew

theorem newParams (params : List Param) (done : List Identifier) :
    coded (l.newParams p done params) = coded (l.newParams q done params) := by
  induction params generalizing done with
  | nil => rfl
  | cons param rest ih =>
    have htaken : ∀ other : Option Identifier, ((p.declared? param.name none).or other).isSome
        = ((q.declared? param.name none).or other).isSome := by
      intro other
      rw [Option.isSome_or, Option.isSome_or, h.declared?_isSome]
    rw [Layer.newParams, Layer.newParams]
    obtain ⟨hp, hq⟩ | ⟨other, other', hp, hq⟩ := both_of_isSome (htaken _)
    · rw [hp, hq]
      dsimp only
      split
      · rfl
      · exact ih _
    · rw [hp, hq]
      rfl

theorem newCallable (kind : IdentKind) (d : CallableDecl) :
    coded (l.newCallable kind d p) = coded (l.newCallable kind d q) :=
  coded_bind (h.newParams d.params []) fun _ ↦ rfl

theorem newScript (d : CallableDecl) : coded (l.newScript d p) = coded (l.newScript d q) := by
  have hexisting : (if d.name == mainName then p.main else p.scripts.get? d.name).map l.viewCallable
      = (if d.name == mainName then q.main else q.scripts.get? d.name).map l.viewCallable := by
    split
    · exact h.main
    · exact Table.get?_of_view h.scripts d.name
  have hnew := isNew_of_view CallableView.isNew Callable.depth (fun _ ↦ rfl) hexisting
  refine coded_bind (h.checkName _ _ _ _ _ ?_) fun _ ↦ h.newCallable _ d
  simpa [Function.comp_def] using hnew

theorem newFunction (d : CallableDecl) : coded (l.newFunction d p) = coded (l.newFunction d q) := by
  have hget := Table.get?_of_view h.functions d.name
  have hcheck := h.checkName d.name .function (l.pos d.nameSpan)
    ((p.functions.get? d.name).map fun c ↦ (c.ident, c.depth))
    ((q.functions.get? d.name).map fun c ↦ (c.ident, c.depth))
    (by simpa [Function.comp_def] using
      isNew_of_view CallableView.isNew Callable.depth (fun _ ↦ rfl) hget)
  rw [Layer.newFunction, Layer.newFunction]
  dsimp only
  split
  · rfl
  · exact coded_bind hcheck fun _ ↦ h.newCallable _ d

end SameTables

/-! ## Items -/

private theorem matches_inspect {α : Type} {look : Program → Except Problem α}
    (hlook : ∀ p q, l.Alike p q → coded (look p) = coded (look q)) :
    Matches l.Alike Eq (inspect look) (inspect look) := by
  intro p q h
  have hcoded := hlook p q h
  rw [inspect, inspect]
  cases hp : look p <;> cases hq : look q <;> rw [hp, hq] at hcoded
  case ok.ok => exact ⟨Except.ok.inj hcoded, h⟩
  case error.error => exact Except.error.inj hcoded
  all_goals contradiction

/-- A callable that is put in has no body yet, and the bodies of the others stay. -/
private theorem Alike.bodies_of_new {p' q' : Program} (h : l.Alike p q) (new : Owner) {c : Callable}
    (hc : c.body = none)
    (hp : ∀ owner, p'.callable? owner = if owner = new then some c else p.callable? owner)
    (hq : ∀ owner, q'.callable? owner = if owner = new then some c else q.callable? owner)
    (hpscopes : p'.scopes = p.scopes) (hqscopes : q'.scopes = q.scopes) (owner : Owner) :
    (p'.bodySeen l.depth owner).map Scope.unlinked
      = (q'.bodySeen l.depth owner).map Scope.unlinked := by
  have hbody : ∀ r : Program, Image.bodyAt? r l.depth c = none := by
    intro r
    rw [Image.bodyAt?, hc]
    split <;> rfl
  have hsame : ∀ {r r' : Program}, r'.scopes = r.scopes →
      Image.bodyAt? r' l.depth = Image.bodyAt? r l.depth := by
    intro r r' hscopes
    have hscope : r'.scope? = r.scope? := by
      funext id
      rw [Program.scope?, hscopes, Program.scope?]
    funext c
    rw [Image.bodyAt?, hscope, Image.bodyAt?]
  rw [Program.bodySeen, Program.bodySeen, hp, hq, hsame hpscopes, hsame hqscopes]
  split
  · rw [Option.bind_some, Option.bind_some, hbody, hbody]
  · exact h.bodies owner

theorem matches_declareItem (i : Item) :
    Matches l.Alike Eq (l.declareItem i) (l.declareItem i) := by
  cases i with
  | directive => exact .pure _
  | global name span =>
    refine .bind (matches_inspect fun p q h ↦ h.toSameTables.newGlobal name span) fun g ↦ ?_
    cases g with
    | none => exact .pure _
    | some g => exact .modify fun p q h ↦ { h with globals := Table.view_insert h.globals name rfl }
  | define d =>
    refine .bind (matches_inspect fun p q h ↦ h.toSameTables.newDefine d) fun e ↦ ?_
    exact .modify fun p q h ↦ { h with defines := Table.view_insert h.defines d.name rfl }
  | callable d =>
    intro p q h
    rw [declareItem]
    cases d.kind with
    | script =>
      have hagree := matches_inspect (fun p q h ↦ h.toSameTables.newScript d) p q h
      refine hagree.bind fun c c' _ _ hp hq hcc _ ↦ ?_
      subst hcc
      obtain ⟨hnew, rfl⟩ := inspect_eq_ok.1 hp
      obtain ⟨-, rfl⟩ := inspect_eq_ok.1 hq
      have hbody := (newScript_new hnew).1.body
      split
      · refine ⟨rfl, { h with main := rfl, bodies := h.bodies_of_new .main hbody ?_ ?_ rfl rfl }⟩
        all_goals
          intro owner
          cases owner <;> simp [Program.callable?]
      · refine ⟨rfl, { h with
          scripts := Table.view_insert h.scripts d.name rfl
          bodies := h.bodies_of_new (.script d.name) hbody ?_ ?_ rfl rfl }⟩
        all_goals
          intro owner
          cases owner <;> simp [Program.callable?, Table.get?_insert]
    | function =>
      have hagree := matches_inspect (fun p q h ↦ h.toSameTables.newFunction d) p q h
      refine hagree.bind fun c c' _ _ hp hq hcc _ ↦ ?_
      subst hcc
      obtain ⟨hnew, rfl⟩ := inspect_eq_ok.1 hp
      obtain ⟨-, rfl⟩ := inspect_eq_ok.1 hq
      have hbody := (newFunction_new hnew).1.body
      refine ⟨rfl, { h with
        functions := Table.view_insert h.functions d.name rfl
        bodies := h.bodies_of_new (.function d.name) hbody ?_ ?_ rfl rfl }⟩
      all_goals
        intro owner
        cases owner <;> simp [Program.callable?, Table.get?_insert]

theorem matches_declareAll (items : List Item) :
    Matches l.Alike Eq (l.declareAll items) (l.declareAll items) := by
  induction items with
  | nil => exact .pure _
  | cons i items ih => exact .bind (matches_declareItem i) fun _ ↦ ih

end Layer

end CharacterScript
