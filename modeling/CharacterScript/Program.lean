import CharacterScript.Code
import CharacterScript.Define
import CharacterScript.SourceMap
import CharacterScript.Vocabulary

/-!
# Programs

What compiling a chain of layers has produced so far: the tables of everything declared and an arena
of scopes with their lowered code. Ids are places in the tables. A function has its index; a script
has its index plus one, because zero is `main`, which is kept outside the table.

## Scopes

Scopes are never removed, so a scope id stays good. Each layer has a pool of the anonymous scopes,
the bodies of its loops and branches, in the order in which they were met.

## Bodies

A callable is put in without a body when it is declared, and gets one when its code has been
lowered. A layer that stops in between leaves callables without a body behind, and a later layer
that declares them again gives them one. Everything that follows a callable to its code has to
expect that there is none.

## Depths

Depths count from one, and a program of depth `d` has a pool and a record for each depth up to
`d`. What belongs to the pool of a depth is written into the image of that depth and into no
other.
-/

namespace CharacterScript

/-- An index into the arena of scopes. -/
abbrev ScopeId := Nat

/-- The name of the script a program starts with. -/
def mainName : String := "main"

/-- A global variable that a file declares, not one the runtime provides. -/
structure GlobalVar where
  /-- Its name and where it was first declared. -/
  ident : Identifier
  /-- The layer that declared it. -/
  depth : Nat

/-- A script or a function. The body is set once it has been lowered. -/
structure Callable where
  /-- Its name and where it was last declared. -/
  ident : Identifier
  /-- The layer that declared it last. -/
  depth : Nat
  /-- Its parameters, references first. -/
  params : List Identifier
  /-- How many of the parameters are references. -/
  refCount : UInt8
  /-- The scope of its code. Missing until that has been lowered. -/
  body : Option ScopeId

/-- The callable a scope belongs to. -/
inductive Owner where
  | main
  | script (name : String)
  | function (name : String)
  deriving DecidableEq

/-- A block with its code. The body of a callable has level one. -/
structure Scope where
  /-- The layer the block stands in. -/
  depth : Nat
  /-- How many blocks around it belong to the same callable, itself included. -/
  level : Nat
  /-- The script or function it is part of. -/
  owner : Owner
  /-- The block around it, if it is not a body. -/
  parent : Option ScopeId
  /-- Its own variables, in the order of their declarations. -/
  vars : Array Identifier := #[]
  /-- Its code. -/
  instructions : Array Instruction := #[]
  /-- The numbers the code refers to by their place. -/
  numbers : Array Float32 := #[]
  /-- The strings the code refers to by their place. -/
  strings : Array String := #[]

/-- The directives and files of a layer. -/
structure LayerInfo where
  /-- The number of the layer. -/
  depth : Nat
  /-- The file the image goes to, as a directive names it. -/
  output : Option String
  /-- The base the layer extends, as a directive names it. -/
  base : Option String
  /-- The source files in the order they were stitched in. -/
  files : List FileIdent

/-- All that the layers compiled so far have declared, and their code. -/
structure Program where
  /-- The depth of the latest layer, counted from one. -/
  depth : Nat := 0
  /-- The global variables. The place of one is its slot. -/
  globals : Table GlobalVar := .empty
  /-- The functions. The place of one is its id. -/
  functions : Table Callable := .empty
  /-- The scripts but `main`. Their ids start at one. -/
  scripts : Table Callable := .empty
  /-- The script `main`, whose id is zero. -/
  main : Option Callable := none
  /-- The definitions, each as the latest layer has it that wrote it. -/
  defines : Table Define := .empty
  /-- All blocks of all layers. -/
  scopes : Array Scope := #[]
  /-- The anonymous scopes of each layer; the pool of depth `d` is at index `d - 1`. -/
  pools : Array (Array ScopeId) := #[]
  /-- The directives and files of each layer. -/
  layers : Array LayerInfo := #[]

namespace Program

def empty : Program := {}

def scope? (p : Program) (id : ScopeId) : Option Scope :=
  p.scopes[id]?

/-- The anonymous scopes of a layer, in order. -/
def anonymous (p : Program) (depth : Nat) : Array ScopeId :=
  if depth = 0 then #[] else p.pools.getD (depth - 1) #[]

def layer? (p : Program) (depth : Nat) : Option LayerInfo :=
  p.layers.find? (·.depth == depth)

def callable? (p : Program) : Owner → Option Callable
  | .main => p.main
  | .script name => p.scripts.get? name
  | .function name => p.functions.get? name

/-- The callables in order: functions, scripts, and `main` last. -/
def callables (p : Program) : List Callable :=
  p.functions.values ++ p.scripts.values ++ p.main.toList

/-- The id of a script of the table. -/
def scriptId? (p : Program) (name : String) : Option Nat :=
  (p.scripts.indexOf? name).map (· + 1)

/-- `main`, if it is what `name` means. -/
def mainNamed? (p : Program) (name : String) : Option Callable :=
  p.main.filter (·.ident.name == name)

/-! ## Names of the top level

The tables have an order of their own in which they are asked, which decides only what a message
says a name is already declared as. -/

/-- The four kinds of name a file declares at its top level. -/
inductive Kind where
  | global | function | script | define
  deriving DecidableEq

/-- What is declared under a name as the given kind. -/
def declaredAs? (p : Program) (name : String) : Kind → Option Identifier
  | .global => (p.globals.get? name).map (·.ident)
  | .function => (p.functions.get? name).map (·.ident)
  | .script => ((p.scripts.get? name).or (p.mainNamed? name)).map (·.ident)
  | .define => (p.defines.get? name).map (·.ident)

/-- What is declared under a name, leaving out one kind. -/
def declared? (p : Program) (name : String) (skip : Option Kind) : Option Identifier :=
  [Kind.global, .function, .script, .define].findSome? fun kind ↦
    if some kind = skip then none else p.declaredAs? name kind

/-! ## Variables

Slots run from the globals over the parameters and the enclosing blocks to the block itself. The
list is put together anew whenever it is needed. -/

/-- The globals, in the order of their slots. -/
def globalIdents (p : Program) : List Identifier :=
  p.globals.values.map (·.ident)

/-- The scopes from `id` outwards, as far as the arena and `fuel` go. -/
def enclosing (p : Program) : Nat → ScopeId → List Scope
  | 0, _ => []
  | fuel + 1, id =>
    match p.scope? id with
    | none => []
    | some s =>
      match s.parent with
      | none => [s]
      | some parent => s :: p.enclosing fuel parent

/-- All variables visible in a scope, in the order of their slots: the globals, the parameters of
its callable, and the variables of the enclosing scopes from the outermost inwards. -/
def allVars (p : Program) (id : ScopeId) : List Identifier :=
  let chain := (p.enclosing p.scopes.size id).reverse
  let params := ((chain.head?.map (·.owner)).bind p.callable?).map (·.params)
  p.globalIdents ++ params.getD [] ++ chain.flatMap (·.vars.toList)

/-! ## Questions about names -/

/-- The body of the script or function with this name. -/
def bodyOf? (p : Program) (name : String) : Option ScopeId :=
  (((p.functions.get? name).or (p.scripts.get? name)).or (p.mainNamed? name)).bind (·.body)

/-- Where a name is declared. The top level comes before parameters, and those before variables. -/
def definition? (p : Program) (name : String) : Option Identifier :=
  (p.declaredAs? name .define)
    |>.or (p.declaredAs? name .global)
    |>.or (p.declaredAs? name .function)
    |>.or (p.declaredAs? name .script)
    |>.or ((p.callables.flatMap (·.params)).find? (·.name == name))
    |>.or (p.scopes.toList.findSome? (·.vars.find? (·.name == name)))

end Program

end CharacterScript
