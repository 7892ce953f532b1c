import CharacterScript.Program

/-!
# Declaring the items of a layer

A layer is one script directory. Its items are declared in order before any body is lowered, so a
body may use what stands after it. A name means one thing at the top level, and never something the
runtime already has; within a layer it is declared once. A later layer may declare a name of the
same kind again: a global keeps its slot, everything else is replaced at its old place, so ids stay.

## Problems

What was declared before a problem stays declared.

## Params are not looked at

A new name is compared with the names of the top level and those of the runtime. The parameters of
callables are compared with them in turn, when the callable is declared, but not the other way
round: a global that comes behind a callable may have the name of one of its parameters.

## Checking and putting in

The functions here that make an entry do not change the program: they get it and answer with the
entry or a problem (`inspect`). Only `declareItem` puts it in, so it is plain that an item that is
refused leaves no trace.
-/

namespace CharacterScript

/-- What a layer is compiled against. -/
structure Layer where
  /-- What the runtime provides. -/
  vocabulary : Vocabulary
  /-- The files and lines of the text, for the positions of what is declared. -/
  map : SourceMap
  /-- The number of the layer, the base of all being one. -/
  depth : Nat
  /-- If set, path directives count only in the file with this name. -/
  entryFile : Option String

namespace Layer

def pos (l : Layer) (span : Span) : Position :=
  l.map.position span

/-- Whether a path directive at this place counts. -/
def honours (l : Layer) (span : Span) : Bool :=
  match l.entryFile with
  | none => true
  | some entry => (Path.mk (l.pos span).file).fileName? == some entry

/-! ## Collisions

The four kinds of names share one space. That the same kind may come again in a later layer, and
not in the same, is all in `checkName`. -/

/-- What the runtime has under a name. -/
def reservedAs? (l : Layer) (name : String) : Option ReservedKind :=
  if (l.vocabulary.command? name).isSome then some .command
  else if (l.vocabulary.global? name).isSome then some .global
  else none

/-- A name may be declared as the given kind if no other kind has it, the runtime does not, and no
earlier item of this layer, `existing`, does. -/
def checkName (l : Layer) (p : Program) (name : String) (kind : Program.Kind) (pos : Position)
    (existing : Option (Identifier × Nat)) : Except Problem Unit :=
  match p.declared? name (some kind) with
  | some other => .error (.duplicate pos name other.pos)
  | none =>
    match l.reservedAs? name with
    | some reserved => .error (.reserved pos name reserved)
    | none =>
      match existing with
      | some (ident, depth) =>
        if depth = l.depth then .error (.duplicate pos name ident.pos) else .ok ()
      | none => .ok ()

/-! ## Items

An entry that is declared anew replaces the old one as a whole: parameters, body and expansion are
gone with it. -/

/-- Looks at the program without changing it. -/
def inspect {α : Type} (look : Program → Except Problem α) : EStateM Problem Program α :=
  fun p ↦
    match look p with
    | .ok a => .ok a p
    | .error e => .error e p

/-- A global to put in, or none if an earlier layer has it: it keeps its slot and its first
declaration. -/
def newGlobal (l : Layer) (name : String) (span : Span) (p : Program) :
    Except Problem (Option GlobalVar) := do
  let pos := l.pos span
  let existing := p.globals.get? name
  l.checkName p name .global pos (existing.map fun g ↦ (g.ident, g.depth))
  match existing with
  | some _ => .ok none
  | none => .ok (some ⟨⟨.global, name, pos⟩, l.depth⟩)

def newDefine (l : Layer) (d : DefineDecl) (p : Program) : Except Problem Define := do
  let pos := l.pos d.nameSpan
  l.checkName p d.name .define pos ((p.defines.get? d.name).map fun e ↦ (e.ident, e.depth))
  .ok ⟨⟨.define, d.name, pos⟩, l.depth, d.span.start, d.text, none⟩

/-- The parameters of a callable; `done` holds those already declared, last one first. A parameter
collides with every top-level name, with the parameters before it and with globals of the
runtime. -/
def newParams (l : Layer) (p : Program) (done : List Identifier) :
    List Param → Except Problem (List Identifier)
  | [] => .ok done.reverse
  | param :: rest =>
    let pos := l.pos param.span
    match (p.declared? param.name none).or (done.reverse.find? (·.name == param.name)) with
    | some other => .error (.duplicate pos param.name other.pos)
    | none =>
      if (l.vocabulary.global? param.name).isSome then
        .error (.reserved pos param.name .global)
      else newParams l p (⟨.arg, param.name, pos⟩ :: done) rest

/-- A callable without its body. An image has one byte for the number of its parameters. -/
def newCallable (l : Layer) (kind : IdentKind) (d : CallableDecl) (p : Program) :
    Except Problem Callable := do
  let params ← l.newParams p [] d.params
  if 255 < d.refCount ∨ 255 < params.length then .error (.limit (l.pos d.nameSpan) .parameters)
  else .ok ⟨⟨kind, d.name, l.pos d.nameSpan⟩, l.depth, params, UInt8.ofNat d.refCount, none⟩

def newScript (l : Layer) (d : CallableDecl) (p : Program) : Except Problem Callable := do
  let existing := if d.name == mainName then p.main else p.scripts.get? d.name
  l.checkName p d.name .script (l.pos d.nameSpan) (existing.map fun c ↦ (c.ident, c.depth))
  l.newCallable .script d p

/-- A function cannot have the name of the script a program starts with. -/
def newFunction (l : Layer) (d : CallableDecl) (p : Program) : Except Problem Callable := do
  let pos := l.pos d.nameSpan
  if d.name == mainName then throw (.reserved pos d.name .script)
  l.checkName p d.name .function pos ((p.functions.get? d.name).map fun c ↦ (c.ident, c.depth))
  l.newCallable .function d p

def declareItem (l : Layer) : Item → EStateM Problem Program Unit
  | .directive .. => pure ()
  | .global name span => do
    match ← inspect (l.newGlobal name span) with
    | none => pure ()
    | some g => modify fun p ↦ { p with globals := p.globals.insert name g }
  | .define d => do
    let entry ← inspect (l.newDefine d)
    modify fun p ↦ { p with defines := p.defines.insert d.name entry }
  | .callable d =>
    match d.kind with
    | .script => do
      let c ← inspect (l.newScript d)
      if d.name == mainName then modify fun p ↦ { p with main := some c }
      else modify fun p ↦ { p with scripts := p.scripts.insert d.name c }
    | .function => do
      let c ← inspect (l.newFunction d)
      modify fun p ↦ { p with functions := p.functions.insert d.name c }

/-- Declares the items in order. A problem leaves what was declared before it. -/
def declareAll (l : Layer) : List Item → EStateM Problem Program Unit
  | [] => pure ()
  | item :: items => do
    l.declareItem item
    l.declareAll items

/-! ## Directives -/

/-- The path of the first directive of a kind that counts. -/
def directive? (l : Layer) (d : PathDirective) (items : List Item) : Option String :=
  items.findSome? fun
    | .directive d' path span => if d' = d && l.honours span then some path else none
    | _ => none

/-- What is recorded of a layer. -/
def info (l : Layer) (items : List Item) : LayerInfo :=
  ⟨l.depth, l.directive? .output items, l.directive? .base items, l.map.files.toList⟩

end Layer

end CharacterScript
