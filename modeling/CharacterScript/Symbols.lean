import CharacterScript.Program

/-!
# Symbols

Everything that can be named at a place, for completion: the commands and globals of the vocabulary
and all that a program declares. Inside a scope its parameters and variables follow, each with its
slot.

## The order of the list

The runtime comes first, then definitions, globals and callables, each in the order of its table,
and at the end what only a scope knows. The slot shown beside a variable is its place among all
that is visible in the scope. A variable that is declared further down is listed too, whether it
stands in front of the place in question or not: a scope is asked about as a whole.
-/

namespace CharacterScript

inductive SymbolKind where
  | command
  | builtinGlobal
  | ident (kind : IdentKind)
  deriving DecidableEq

def SymbolKind.word : SymbolKind → String
  | command => "Command"
  | builtinGlobal => "BuiltinGlobal"
  | ident kind => kind.word

/-- A name that may be used at some place, as an editor lists it. -/
structure Symbol where
  /-- The name. -/
  name : String
  /-- What it stands for. -/
  kind : SymbolKind
  /-- What is shown beside it, such as the parameters of a script. -/
  detail : Option String
  /-- Absent for what the runtime provides. -/
  pos : Option Position

namespace Symbol

def ofIdent (ident : Identifier) (detail : Option String) : Symbol :=
  ⟨ident.name, .ident ident.kind, detail, some ident.pos⟩

def slotText (slot : Nat) : String :=
  "slot " ++ toString slot

/-- A parameter list as it is shown. -/
def paramText (params : List String) : String :=
  "(" ++ ", ".intercalate params ++ ")"

def ofCommand (c : Vocabulary.Command) : Symbol :=
  ⟨c.name, .command, some (paramText c.params), none⟩

def ofGlobal (g : Vocabulary.Global) : Symbol :=
  ⟨g.name, .builtinGlobal, some (slotText g.slot.toNat), none⟩

/-- A callable, with its reference parameters marked. -/
def ofCallable (c : Callable) : Symbol :=
  let params := c.params.mapIdx fun i p ↦ if i < c.refCount.toNat then "&" ++ p.name else p.name
  ofIdent c.ident (some (paramText params))

end Symbol

namespace Program

/-- Everything that can be named at the top level. -/
def symbols (p : Program) (v : Vocabulary) : List Symbol :=
  v.commands.values.map .ofCommand ++ v.globals.values.map .ofGlobal ++
    p.defines.values.map (fun d ↦ .ofIdent d.ident (some d.text)) ++
    p.globalIdents.map (.ofIdent · none) ++
    p.callables.map .ofCallable

/-- The parameters and variables visible in a scope. -/
def locals (p : Program) (id : ScopeId) : List Symbol :=
  ((p.allVars id).mapIdx fun slot ident ↦ Symbol.ofIdent ident (some (Symbol.slotText slot))).drop
    p.globals.size

/-- Everything that can be named inside a scope. -/
def symbolsIn (p : Program) (v : Vocabulary) (id : ScopeId) : List Symbol :=
  p.symbols v ++ p.locals id

end Program

end CharacterScript
