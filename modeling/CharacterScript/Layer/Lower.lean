import CharacterScript.Layer.Declare

/-!
# Lowering bodies

A body becomes a scope of instructions. Loops and branches become scopes of their own, put into the
anonymous pool of the layer, and the instruction in the enclosing scope names its place in the pool.
The place is taken before the inner block is lowered, so an outer block comes before those inside
it.

While a block is lowered, the scope being filled is kept apart from the arena, in `Work.scope`; the
arena has an empty scope in its place until the block is complete. A problem therefore leaves empty
scopes behind, in the arena and in the pool.

## Two kinds of place

A name in an expression is first looked up among the definitions visible at its place. Its tree is
then lowered in place of the name, with every position in it being that of the name. Definitions are
fully expanded before, so inside one no further definition is looked up: `Site` is how the two kinds
of place differ.

## Order of problems

Lowering stops at the first problem, and which one that is can be seen from outside. So arguments
are lowered in order before their number is compared, a condition before its block, and the value
in a `let` before its name is looked at.

## Words

Indices become 16-bit words when they are put into an operand, with a check that they fit
(`Lowering.fit`). The check is made on the index, so a table may have one entry more than the
largest word says.
-/

namespace CharacterScript

/-- The place where code is being lowered. -/
structure Env where
  /-- The layer the code is part of. -/
  layer : Layer
  /-- The script or function the code is part of. -/
  owner : Owner
  /-- The parameters of that callable. -/
  params : List Identifier
  /-- The variables of the enclosing scopes, from the outermost inwards. -/
  outer : List Identifier
  /-- The scope being filled. -/
  scope : ScopeId
  /-- How deep that scope is nested. -/
  level : Nat

/-- A program and the scope being filled. -/
structure Work where
  /-- All that is finished, with the pools the scopes are entered in. -/
  program : Program
  /-- The scope the next instruction goes to. -/
  scope : Scope

/-- A step of lowering. A problem keeps the program as it was then. -/
abbrev Lowering := EStateM Problem Work

/-- A number as a 16-bit word, if it fits. -/
def word? (n : Nat) : Option UInt16 :=
  if h : n < 65536 then some (UInt16.ofNatLT n h) else none

namespace Lowering

/-- A number as a word; too large a number is a problem. -/
def fit (n : Nat) (what : Limit) (pos : Unit → Position) : Lowering UInt16 :=
  match word? n with
  | some w => pure w
  | none => throw (.limit (pos ()) what)

/-! ## The scope being filled

These are the only steps that add to a scope. None of them looks at what is there already: a
number that is used twice is in the pool twice. -/

def emit (i : Instruction) : Lowering Unit :=
  modify fun w ↦ { w with scope := { w.scope with instructions := w.scope.instructions.push i } }

/-- Puts a number into the pool, in single precision. -/
def pushNumber (value : Float) (pos : Unit → Position) : Lowering Operand := do
  modify fun w ↦ { w with scope := { w.scope with numbers := w.scope.numbers.push (narrow value) } }
  let index ← fit ((← get).scope.numbers.size - 1) .numbers pos
  pure (.number index)

def pushString (value : String) (pos : Unit → Position) : Lowering Operand := do
  modify fun w ↦ { w with scope := { w.scope with strings := w.scope.strings.push value } }
  let index ← fit ((← get).scope.strings.size - 1) .strings pos
  pure (.text index)

def declareVar (ident : Identifier) : Lowering Unit :=
  modify fun w ↦ { w with scope := { w.scope with vars := w.scope.vars.push ident } }

end Lowering

namespace Env

/-! ## Names

A plain name is looked up among the variables first, from the outermost inwards, then among the
scripts, then in the runtime. Names are kept apart when they are declared, so the order seldom
matters. -/

/-- The variables visible here, in the order of their slots. -/
def vars (env : Env) (w : Work) : List Identifier :=
  w.program.globalIdents ++ env.params ++ env.outer ++ w.scope.vars.toList

/-- The slot of a variable. -/
def slot? (env : Env) (name : String) (w : Work) : Option Nat :=
  (env.vars w).findIdx? (·.name == name)

/-- The definition a name at this offset stands for. -/
def define? (env : Env) (name : String) (offset : Nat) (w : Work) : Option Define :=
  (w.program.defines.get? name).filter (·.visibleFrom env.layer.depth offset)

/-- What a new variable with this name would collide with. -/
def taken? (env : Env) (name : String) (offset : Nat) (w : Work) : Option Identifier :=
  ((env.vars w).find? (·.name == name))
    |>.or ((env.define? name offset w).map (·.ident))
    |>.or (w.program.declared? name (some .define))

/-- What a call can call: what it is, its id, the number of its parameters, whether it takes more
than that, and how many of them are references. -/
structure Callee where
  /-- A builtin command, a script or a function. -/
  target : CallTarget
  /-- The opcode of a command, the index of a script or a function. -/
  id : Nat
  /-- How many arguments a call needs. -/
  arity : Nat
  /-- Whether a call may have more than that. -/
  variadic : Bool
  /-- How many of the parameters, from the first on, are references. -/
  refCount : Nat

/-- What a call with this name calls. -/
def callee? (env : Env) (name : String) (w : Work) : Option Callee :=
  let p := w.program
  match p.scriptId? name, p.scripts.get? name with
  | some id, some c => some ⟨.script, id, c.params.length, false, c.refCount.toNat⟩
  | _, _ =>
    match p.functions.indexOf? name, p.functions.get? name with
    | some id, some c => some ⟨.function, id, c.params.length, false, c.refCount.toNat⟩
    | _, _ =>
      match env.layer.vocabulary.command? name with
      | some c => some ⟨.builtin, c.opcode.toNat, c.arity, c.isVariadic, 0⟩
      | none =>
        match if name == mainName then p.main else none with
        | some c => some ⟨.script, 0, c.params.length, false, c.refCount.toNat⟩
        | none => none

/-- A name that is not a definition: a variable, the id of a script, or a global of the runtime. -/
def plainName (env : Env) (name : String) (fromTarget : Bool) (pos : Unit → Position) :
    Lowering Operand := do
  let w ← get
  match env.slot? name w with
  | some slot => return .var (← Lowering.fit slot .vars pos)
  | none =>
    match w.program.scriptId? name with
    | some id => return .raw (← Lowering.fit id .scripts pos)
    | none =>
      match env.layer.vocabulary.global? name with
      | some g => return .global g.slot fromTarget
      | none => throw (.unknownName (pos ()) name)

end Env

/-! ## Expressions

The four functions follow the constructors of the tree and differ between sites only in what a
site says of names and calculations. -/

/-- How the names and calculations at a place are read, and where they are shown. -/
structure Site where
  /-- Where a span of this text is shown. -/
  pos : Span → Position
  /-- What a name stands for; the flag says whether a reference to it is meant. -/
  name : String → Bool → Span → Lowering Operand
  /-- The value of the arithmetic in a calculation. -/
  calculate : String → Span → Lowering Float

/-- The value of a calculation, or the problem with it. -/
def calculated (text : String) (pos : Unit → Position) : Lowering Float :=
  match evaluate text with
  | .ok value => pure value
  | .error e => throw (.calc_ (pos ()) text e)

/-- The arguments a call was given are as many as it takes, and variables where it takes
references. -/
def checkArgs (site : Site) (callee : Env.Callee) (name : String) (nameSpan : Span)
    (args : List Arg) (operands : List Operand) : Lowering Unit := do
  let given := operands.length
  if callee.variadic then
    if given = 0 then throw (.argCount (site.pos nameSpan) name given 1 true)
  else if given ≠ callee.arity then
    throw (.argCount (site.pos nameSpan) name given callee.arity false)
  match (operands.take callee.refCount).findIdx? (!·.isVar) with
  | none => pure ()
  | some index =>
    let span := (args[index]?.map Arg.span).getD nameSpan
    throw (.refArg (site.pos span) name index)

mutual

def Expr.lower (env : Env) (site : Site) : Expr → Lowering Operand
  | .number value span => Lowering.pushNumber value fun _ ↦ site.pos span
  | .calculation text span => do
    let value ← site.calculate text span
    Lowering.pushNumber value fun _ ↦ site.pos span
  | .not inner _ => do
    let inner ← inner.lower env site
    pure (.not inner)
  | .binary op left right _ => do
    let left ← left.lower env site
    let right ← right.lower env site
    pure (.binary op left right)
  | .call c _ => do
    let (target, id, args) ← c.lower env site
    pure (.call target id c.name args)
  | .name s fromTarget span => site.name s fromTarget span

/-- What is called, its id, and the operands. The callee is looked up before the arguments are
lowered, and the arguments are checked after that. -/
def Call.lower (env : Env) (site : Site) :
    Call → Lowering (CallTarget × UInt16 × List Operand)
  | .mk name nameSpan _ args _ => do
    match env.callee? name (← get) with
    | none => throw (.unknownCallee (site.pos nameSpan) name)
    | some callee =>
      let id ← Lowering.fit callee.id .callables fun _ ↦ site.pos nameSpan
      let operands ← lowerArgs env site [] args
      checkArgs site callee name nameSpan args operands
      pure (callee.target, id, operands)

def Arg.lower (env : Env) (site : Site) : Arg → Lowering Operand
  | .expr e => e.lower env site
  | .text value span => Lowering.pushString value fun _ ↦ site.pos span

/-- The operands of the arguments; `done` holds those already lowered, last one first. -/
def lowerArgs (env : Env) (site : Site) (done : List Operand) :
    List Arg → Lowering (List Operand)
  | [] => pure done.reverse
  | arg :: rest => do
    let operand ← arg.lower env site
    lowerArgs env site (operand :: done) rest

end

namespace Site

/-- The inside of a definition used at `pos`. -/
def inside (env : Env) (pos : Position) : Site where
  pos _ := pos
  name s fromTarget _ := env.plainName s fromTarget fun _ ↦ pos
  calculate text _ := calculated text fun _ ↦ pos

/-- The text of a calculation with the visible definitions put in, in the order of the table. -/
def substituted (env : Env) (w : Work) (text : String) (offset : Nat) : String :=
  w.program.defines.values.foldl (fun text d ↦
    match d.expansion with
    | some e =>
      if d.visibleFrom env.layer.depth offset && containsWord text d.ident.name then
        replaceWord text d.ident.name e.text
      else text
    | none => text) text

/-- Code as it was written. -/
def written (env : Env) : Site where
  pos := env.layer.pos
  name s fromTarget span := do
    let pos := fun _ ↦ env.layer.pos span
    match env.define? s span.start (← get) with
    | none => env.plainName s fromTarget pos
    | some d =>
      match d.expansion with
      | none => throw (.unknownName (pos ()) s)
      | some e => e.tree.lower env (inside env (pos ()))
  calculate text span := do
    let text := substituted env (← get) text span.start
    calculated text fun _ ↦ env.layer.pos span

end Site

/-- Lowers an expression as it was written. -/
def Expr.lowerHere (env : Env) (e : Expr) : Lowering Operand :=
  e.lower env (.written env)

/-! ## Scopes -/

namespace Lowering

/-- Adds an empty scope to the arena. -/
def allocate (scope : Scope) : Lowering ScopeId := do
  let id := (← get).program.scopes.size
  modify fun w ↦
    { w with program := { w.program with scopes := w.program.scopes.push scope } }
  pure id

/-- Puts the filled scope into its place in the arena. -/
def store (id : ScopeId) : Lowering Unit :=
  modify fun w ↦
    { w with program := { w.program with scopes := w.program.scopes.setIfInBounds id w.scope } }

/-- Adds a scope to the pool of the layer and gives its place there. -/
def pool (depth : Nat) (id : ScopeId) : Lowering Nat := do
  let place := ((← get).program.anonymous depth).size
  modify fun w ↦
    { w with program := { w.program with pools := w.program.pools.modify (depth - 1) (·.push id) } }
  pure place

/-- Makes another scope the one being filled, and gives the one before. -/
def swapScope (scope : Scope) : Lowering Scope :=
  fun w ↦ .ok w.scope { w with scope := scope }

end Lowering

/-- The place inside a new scope of a block that has these variables so far. -/
def Env.enter (env : Env) (vars : List Identifier) (id : ScopeId) : Env :=
  { env with outer := env.outer ++ vars, scope := id, level := env.level + 1 }

/-- The empty scope nested in the one being filled. -/
def Env.nested (env : Env) : Scope :=
  { depth := env.layer.depth, level := env.level + 1, owner := env.owner, parent := some env.scope }

/-- The last byte of a block. -/
def Block.endSpan (b : Block) : Span :=
  ⟨b.span.stop - 1, b.span.stop⟩

/-! ## Statements

A block is opened by allocating its scope, and closed by putting the filled scope in its place. In
between the enclosing scope is held in a local variable, where nothing can touch it. -/

/-- Declares a variable and sets it. -/
def lowerLet (env : Env) (name : String) (nameSpan : Span) (value : Operand) :
    Lowering Unit := do
  let pos := env.layer.pos nameSpan
  match env.taken? name nameSpan.start (← get) with
  | some other => throw (.duplicate pos name other.pos)
  | none =>
    if (env.layer.vocabulary.global? name).isSome then throw (.reserved pos name .var)
    let slot := (env.vars (← get)).length
    Lowering.declareVar ⟨.var, name, pos⟩
    let slot ← Lowering.fit slot .vars fun _ ↦ pos
    Lowering.emit .createVariable
    Lowering.emit (.setVariable slot value)

/-- The slot of a variable that is assigned to. -/
def assignedSlot (env : Env) (name : String) (nameSpan : Span) : Lowering UInt16 := do
  match env.slot? name (← get) with
  | some slot => Lowering.fit slot .vars fun _ ↦ env.layer.pos nameSpan
  | none => throw (.unknownName (env.layer.pos nameSpan) name)

mutual

def Stmt.lower (env : Env) : Stmt → Lowering Unit
  | .break_ span => do
    let zero ← Lowering.pushNumber 0 fun _ ↦ env.layer.pos span
    Lowering.emit (.leave zero .loop)
  | .call c => do
    let (target, id, args) ← c.lower env (.written env)
    Lowering.emit (.call target id c.name c.collapse args)
  | .let_ name nameSpan value _ => do
    let value ← value.lowerHere env
    lowerLet env name nameSpan value
  | .assign name nameSpan op value _ => do
    let slot ← assignedSlot env name nameSpan
    let value ← value.lowerHere env
    match op with
    | some op => Lowering.emit (.setVariable slot (.binary op (.var slot) value))
    | none => Lowering.emit (.setVariable slot value)
  | .return_ (some value) _ => do
    let value ← value.lowerHere env
    Lowering.emit (.leave value .function)
  | .return_ none span => do
    let zero ← Lowering.pushNumber 0 fun _ ↦ env.layer.pos span
    Lowering.emit (.leave zero .function)
  | .loop body _ => do
    let scope ← body.lower env
    Lowering.emit (.loop scope)
  | .if_ cond body rest _ => do
    let cond ← cond.lowerHere env
    let scope ← body.lower env
    let sections ← rest.lower env [.raw scope, cond, .raw Instruction.Tag.first.code]
    Lowering.emit (.choose sections)
  | .lone name span => throw (.lone (env.layer.pos span) name)

def lowerStmts (env : Env) : List Stmt → Lowering Unit
  | [] => pure ()
  | s :: rest => do
    s.lower env
    lowerStmts env rest

/-- Lowers the body of a loop or a branch into an anonymous scope and gives its place in the
pool. -/
def Block.lower (env : Env) : Block → Lowering UInt16
  | .mk stmts span => do
    let id ← Lowering.allocate env.nested
    let place ← Lowering.pool env.layer.depth id
    let place ← Lowering.fit place .anonymousScopes fun _ ↦ env.layer.pos span
    let before ← Lowering.swapScope env.nested
    lowerStmts (env.enter before.vars.toList id) stmts
    let zero ← Lowering.pushNumber 0 fun _ ↦ env.layer.pos (Block.mk stmts span).endSpan
    Lowering.emit (.leave zero .scope)
    Lowering.store id
    discard (Lowering.swapScope before)
    pure place

/-- The sections of an `if` after its first; `done` holds the operands already there, last one
first. -/
def Branches.lower (env : Env) (done : List Operand) : Branches → Lowering (List Operand)
  | .done => pure done.reverse
  | .else_ body => do
    let scope ← body.lower env
    pure (.raw scope :: .raw Instruction.Tag.otherwise.code :: done).reverse
  | .elif cond body rest => do
    let cond ← cond.lowerHere env
    let scope ← body.lower env
    rest.lower env (.raw scope :: cond :: .raw Instruction.Tag.next.code :: done)

end

/-! ## Bodies -/

/-- Lowers the body of a callable and gives its scope. -/
def lowerBody (layer : Layer) (owner : Owner) (body : Block) :
    EStateM Problem Program ScopeId := fun p ↦
  let id := p.scopes.size
  let params := ((p.callable? owner).map (·.params)).getD []
  let scope : Scope := { depth := layer.depth, level := 1, owner, parent := none }
  let env : Env := ⟨layer, owner, params, [], id, 1⟩
  let run : Lowering Unit := do
    lowerStmts env body.stmts
    Lowering.emit .loopback
    Lowering.store id
  match run ⟨{ p with scopes := p.scopes.push scope }, scope⟩ with
  | .ok _ w => .ok id w.program
  | .error e w => .error e w.program

end CharacterScript
