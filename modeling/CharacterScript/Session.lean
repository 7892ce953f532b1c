import CharacterScript.Layer.Lower

/-!
# Sessions

A session compiles a chain of layers, the base first, into one program. Each layer goes one deeper
and gets a pool of its own for anonymous scopes. A layer that fails leaves the session usable: later
layers see whatever it had done by then.

## The steps of a layer

The steps of a layer are: declare everything, record the layer, insist on a `main`, expand all
definitions anew, because one may have been replaced that an older one mentions, and then lower the
bodies declared in this layer, functions first, then scripts, `main` last.

## Failing

Every step works on the program in place, and a step that fails leaves what it had done. So a
session after a failure has names that were declared, callables without bodies, and empty scopes;
what it does not have is code that was lowered in part. The next layer goes one deeper all the
same, and depths of layers that failed have no image.
-/

namespace CharacterScript

namespace Layer

/-- Works on the definitions of a program. -/
def onDefines {α : Type} (x : EStateM Problem (Table Define) α) : EStateM Problem Program α :=
  fun p ↦
    match x p.defines with
    | .ok a defines => .ok a { p with defines }
    | .error e defines => .error e { p with defines }

/-- The bodies that the items of a layer give for the callables of a kind, by name. -/
def bodies (kind : CallableKind) (items : List Item) : Table Block :=
  items.foldl (fun t item ↦
    match item with
    | .callable d => if d.kind = kind then t.insert d.name d.body else t
    | _ => t) .empty

/-- Those of the bodies whose callables were declared in this layer, in the order of the table. -/
def current (l : Layer) (callables : Table Callable) (bodies : Table Block) :
    List (String × Block) :=
  callables.toList.filterMap fun (name, c) ↦
    if c.depth = l.depth then (bodies.get? name).map (name, ·) else none

/-- The callable with its body set, if there is one with this name. -/
def setBody (callables : Table Callable) (name : String) (id : ScopeId) : Table Callable :=
  match callables.indexOf? name with
  | some i => callables.modifyAt i fun c ↦ { c with body := some id }
  | none => callables

def lowerFunctions (l : Layer) : List (String × Block) → EStateM Problem Program Unit
  | [] => pure ()
  | (name, body) :: rest => do
    let id ← lowerBody l (.function name) body
    modify fun p ↦ { p with functions := setBody p.functions name id }
    l.lowerFunctions rest

def lowerScripts (l : Layer) : List (String × Block) → EStateM Problem Program Unit
  | [] => pure ()
  | (name, body) :: rest => do
    let id ← lowerBody l (.script name) body
    modify fun p ↦ { p with scripts := setBody p.scripts name id }
    l.lowerScripts rest

def lowerMain (l : Layer) : Option Block → EStateM Problem Program Unit
  | none => pure ()
  | some body => do
    let id ← lowerBody l .main body
    modify fun p ↦ { p with main := p.main.map fun c ↦ { c with body := some id } }

/-- Compiles the items of a layer. -/
def compile (l : Layer) (items : List Item) : EStateM Problem Program Unit := do
  l.declareAll items
  modify fun p ↦ { p with layers := p.layers.push (l.info items) }
  if (← get).main.isNone then throw .missingMain
  onDefines Expansion.expandAll
  let scriptBodies := bodies .script items
  l.lowerFunctions (l.current (← get).functions (bodies .function items))
  l.lowerScripts (l.current (← get).scripts scriptBodies)
  l.lowerMain (scriptBodies.get? mainName)

end Layer

/-- A compiler between two layers. -/
structure Session where
  /-- What the runtime provides, the same for all layers. -/
  vocabulary : Vocabulary
  /-- If set, path directives count only in the file with this name. -/
  entryFile : Option String
  /-- All that the layers so far have added up to. -/
  program : Program

namespace Session

def new (vocabulary : Vocabulary) (entryFile : Option String) : Session :=
  ⟨vocabulary, entryFile, .empty⟩

/-- The program one layer deeper, with an empty pool for it. -/
def deepen (p : Program) : Program :=
  { p with depth := p.depth + 1, pools := p.pools.push #[] }

/-- Compiles a text as the layer that `p` was deepened for. -/
def compileText (vocabulary : Vocabulary) (entryFile : Option String) (source : String) :
    EStateM Problem Program Unit := fun p ↦
  let map := SourceMap.ofSource source
  match lex source with
  | .error e => .error (.lex (map.position ⟨e.offset, e.offset + 1⟩) none e.cause) p
  | .ok ts =>
    match parseFile source ts with
    | .error e => .error (.parse (map.position e.span) none e.expected e.found) p
    | .ok items =>
      let layer : Layer := ⟨vocabulary, map, p.depth, entryFile⟩
      layer.compile items p

/-- Compiles the next layer. The answer is its depth or the first problem; the session goes on from
what the layer left either way. -/
def compileLayer (s : Session) (source : String) : Except Problem Nat × Session :=
  let p := deepen s.program
  let depth := p.depth
  match compileText s.vocabulary s.entryFile source p with
  | .ok _ p => (.ok depth, { s with program := p })
  | .error e p => (.error e, { s with program := p })

end Session

/-- Compiles a single text. -/
def compileSource (source : String) (vocabulary : Vocabulary) : Except Problem Program :=
  match (Session.new vocabulary none).compileLayer source with
  | (.ok _, s) => .ok s.program
  | (.error e, _) => .error e

end CharacterScript
