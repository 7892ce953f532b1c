import CharacterScript.Tree

/-!
# Lowered code

The instructions a body is turned into, before they are written as bytes. An instruction is a
command of the vocabulary with its operands. Numbers and strings are kept in pools of the scope the
code belongs to and operands hold their indices; variables are slots of the chain of visible
variables.

Indices, slots and ids are 16-bit words, because that is what an image has room for.

## What an operand knows

An operand is complete by itself: it says in which pool, table or chain of variables its index is
to be looked up. A call carries its own operands, so operands are trees, nested as deep as the
expression was. The name of a function is kept beside its id only because a call of it written in
an image has it; everything else that had a name in the source has only a number here.

## Commands that are not called

Loops, branches, assignments and returns are commands like those a script can call. They are the
constants at the end of this file, so that no other module spells their names.
-/

namespace CharacterScript

/-- What a call calls. -/
inductive CallTarget where
  | function | script | builtin
  deriving DecidableEq

inductive Operand where
  /-- An index into the number pool. -/
  | number (index : UInt16)
  /-- An index into the string pool. -/
  | text (index : UInt16)
  | var (slot : UInt16)
  /-- A global of the runtime; `relative` if it was written with `@`. -/
  | global (slot : UInt16) (relative : Bool)
  /-- A plain word: a script id, the id of an anonymous scope, or a tag. -/
  | raw (value : UInt16)
  /-- The id is a function index, a script id or an opcode, as the target says. -/
  | call (target : CallTarget) (id : UInt16) (name : String) (args : List Operand)
  | not (inner : Operand)
  | binary (op : BinOp) (left right : Operand)

namespace Operand

/-- The number the runtime knows negation by; the binary operators have the smaller ones. -/
def notCode : Nat := 18

def isVar : Operand → Bool
  | var _ => true
  | _ => false

end Operand

/-- A command of the runtime with the operands it is given. -/
structure Instruction where
  /-- The name of the command, as the vocabulary lists it. -/
  command : String
  /-- The operands, in the order they are written. -/
  args : List Operand

/-! ## The commands that lowering uses itself

A runtime has to provide these under the names given here. Whether its vocabulary lists them does
not matter, since they are not looked up. -/

namespace Instruction

/-- What a `Return` leaves. -/
inductive Leaves where
  | scope | function | script | loop
  deriving DecidableEq

def Leaves.code : Leaves → UInt16
  | scope => 0
  | function => 1
  | script => 2
  | loop => 3

/-- The tags that separate the sections of an `If`. -/
inductive Tag where
  | first | next | otherwise | close
  deriving DecidableEq

def Tag.code : Tag → UInt16
  | first => 0
  | next => 1
  | otherwise => 2
  | close => 3

def loopback : Instruction := ⟨"Loopback", []⟩

def leave (value : Operand) (what : Leaves) : Instruction :=
  ⟨"Return", [value, .raw what.code]⟩

def createVariable : Instruction := ⟨"CreateVariable", [.raw 0]⟩

def setVariable (slot : UInt16) (value : Operand) : Instruction :=
  ⟨"SetVariable", [.var slot, value]⟩

/-- Runs an anonymous scope again and again. -/
def loop (scope : UInt16) : Instruction := ⟨"Loop", [.raw scope]⟩

/-- A choice between anonymous scopes, from its sections. -/
def choose (sections : List Operand) : Instruction :=
  ⟨"If", sections ++ [.raw Tag.close.code]⟩

/-- A call as a statement. A command of the runtime stands for itself; `collapse` matters for
scripts only. -/
def call (target : CallTarget) (id : UInt16) (name : String) (collapse : Bool)
    (args : List Operand) : Instruction :=
  match target with
  | .builtin => ⟨name, args⟩
  | .function => ⟨"CallFn", [.call target id name args]⟩
  | .script => ⟨if collapse then "Collapse" else "CallScript", [.call target id name args]⟩

end Instruction

end CharacterScript
