import CharacterScript.Program

/-!
# Images

The bytes a runtime loads. All numbers are little-endian:

    image     globals:u8 scripts:u8 pointer:u32* functions:u8 pointer:u32* scopes:u16 pointer:u32*
              body*
    callable  references:u8 parameters:u8 name:u16 scope name NUL
    scope     instructions:u16 numbers:u16 strings:u16 instruction* f32* (length:u8 byte*)*

## Pointers

A pointer of the header is an offset from the start of the image, or zero for what the image has
not; the other offsets are from the start of their callable or scope. Bodies come in the order of
their pointers: scripts with `main` first, functions, anonymous scopes. An image holds only what was
compiled at its own depth, so the images of a chain overlay each other slot by slot.

## Two passes

Each body is written on its own first, so its length is known when the pointers are.

## What cannot be written

All counts and offsets have a fixed width, so a program may be too large for an image. Each such
place is checked by one function, which says what was counted or pointed to, and writing stops at
the first. Lowering has checked some of the counts before, and those are checked again: an image
is written for any program, not only for one that came from source files.
-/

namespace CharacterScript

/-- The parts of an image whose number is limited. -/
inductive Counted where
  | globals | scripts | functions | anonymousScopes | commands | parameters
  deriving DecidableEq

def Counted.word : Counted → String
  | globals => "globals"
  | scripts => "scripts"
  | functions => "functions"
  | anonymousScopes => "anonymous scopes"
  | commands => "commands"
  | parameters => "parameters"

/-- What a pointer points to. -/
inductive Pointed where
  | body | name | numbers | strings
  deriving DecidableEq

def Pointed.word : Pointed → String
  | body => "body"
  | name => "name"
  | numbers => "number pool"
  | strings => "string pool"

/-- What the payload of an operand is. -/
inductive Payload where
  | number | text | var | global | function | opcode | operator
  deriving DecidableEq

def Payload.word : Payload → String
  | number => "number index"
  | text => "string index"
  | var => "variable slot"
  | global => "global slot"
  | function => "function id"
  | opcode => "opcode"
  | operator => "operator"

/-- The width of a payload. -/
def payloadBits : Nat := 13

/-- Why a program has no image. -/
inductive ImageError where
  | unknownCommand (name : String)
  | payloadOverflow (what : Payload) (value : Nat)
  | countOverflow (what : Counted) (count : Nat)
  | stringTooLong (bytes : Nat)
  | pointerOverflow (what : Pointed) (offset : Nat)
  deriving DecidableEq

def ImageError.message : ImageError → String
  | unknownCommand name => "command '" ++ name ++ "' is not in the builtins table"
  | payloadOverflow what value =>
    what.word ++ " " ++ toString value ++ " does not fit in " ++ toString payloadBits ++ " bits"
  | countOverflow what count => "too many " ++ what.word ++ ": " ++ toString count
  | stringTooLong bytes => "string literal of " ++ toString bytes ++ " bytes is longer than 255"
  | pointerOverflow what offset =>
    what.word ++ " offset " ++ toString offset ++ " does not fit its pointer"

namespace Image

/-! ## Bytes -/

def byte (n : Nat) : UInt8 :=
  UInt8.ofNat n

/-- The two bytes of a word, the low one first. -/
def bytes16 (n : Nat) : List UInt8 :=
  [byte n, byte (n / 256)]

def bytes32 (n : Nat) : List UInt8 :=
  [byte n, byte (n / 256), byte (n / 65536), byte (n / 16777216)]

def count8 (what : Counted) (n : Nat) : Except ImageError Nat :=
  if n < 256 then .ok n else .error (.countOverflow what n)

def count16 (what : Counted) (n : Nat) : Except ImageError Nat :=
  if n < 65536 then .ok n else .error (.countOverflow what n)

def pointer16 (what : Pointed) (offset : Nat) : Except ImageError Nat :=
  if offset < 65536 then .ok offset else .error (.pointerOverflow what offset)

/-! ## Operands

An operand starts with a word that says what it is, and a second one says which, if that is not
clear. A call is followed by its operands, in number as many as its callee takes, so nothing marks
their end. -/

/-- The kind of an operand, in the low three bits of its word. A command of the runtime nested in an
expression has the tag of an absolute global. -/
inductive Tag where
  | number | text | function | var | global | relativeGlobal | expression
  deriving DecidableEq

def Tag.code : Tag → Nat
  | number => 0
  | text => 1
  | function => 2
  | var => 3
  | global => 4
  | relativeGlobal => 5
  | expression => 6

/-- The word with a tag and a payload. -/
def tagged (tag : Tag) (what : Payload) (payload : Nat) : Except ImageError UInt16 :=
  if payload < Nat.pow 2 payloadBits then .ok (UInt16.ofNat (8 * payload + tag.code))
  else .error (.payloadOverflow what payload)

/-- The word a call starts with. A script is called by its bare id. -/
def callWord (target : CallTarget) (id : UInt16) : Except ImageError UInt16 :=
  match target with
  | .function => tagged .function .function id.toNat
  | .builtin => tagged .global .opcode id.toNat
  | .script => .ok id

mutual

/-- Writes an operand behind the words already there. The operands of a call and of an operator
follow its word. -/
def writeOperand (out : Array UInt16) : Operand → Except ImageError (Array UInt16)
  | .number index => do .ok (out.push (← tagged .number .number index.toNat))
  | .text index => do .ok (out.push (← tagged .text .text index.toNat))
  | .var slot => do .ok (out.push (← tagged .var .var slot.toNat))
  | .global slot relative => do
    let tag := if relative then Tag.relativeGlobal else .global
    .ok (out.push (← tagged tag .global slot.toNat))
  | .raw value => .ok (out.push value)
  | .call target id _ args => do writeOperands (out.push (← callWord target id)) args
  | .not inner => do
    writeOperand (out.push (← tagged .expression .operator Operand.notCode)) inner
  | .binary op left right => do
    let out ← writeOperand (out.push (← tagged .expression .operator op.code)) left
    writeOperand out right

def writeOperands (out : Array UInt16) : List Operand → Except ImageError (Array UInt16)
  | [] => .ok out
  | o :: rest => do
    let out ← writeOperand out o
    writeOperands out rest

end

/-- Writes instructions behind the words already there, each with its opcode in front. -/
def writeInstructions (v : Vocabulary) (out : Array UInt16) :
    List Instruction → Except ImageError (Array UInt16)
  | [] => .ok out
  | i :: rest => do
    match v.command? i.command with
    | none => .error (.unknownCommand i.command)
    | some c =>
      let out ← writeOperands (out.push c.opcode) i.args
      writeInstructions v out rest

/-! ## Scopes and callables -/

/-- A string with its length in front. -/
def stringBytes (s : String) : Except ImageError (List UInt8) :=
  let bytes := s.toUTF8.data.toList
  if bytes.length < 256 then .ok (byte bytes.length :: bytes)
  else .error (.stringTooLong bytes.length)

/-- The length of the counts and pointers a scope starts with. -/
def scopeHead : Nat := 6

def scopeBytes (v : Vocabulary) (s : Scope) : Except ImageError (List UInt8) := do
  let words ← writeInstructions v #[] s.instructions.toList
  let code := words.toList.flatMap fun w ↦ bytes16 w.toNat
  let count ← count16 .commands s.instructions.size
  let numbers ← pointer16 .numbers (scopeHead + 2 * words.size)
  let strings ← pointer16 .strings (scopeHead + 2 * words.size + 4 * s.numbers.size)
  let numberBytes := s.numbers.toList.flatMap fun x ↦ bytes32 x.toBits.toNat
  let strings' ← s.strings.toList.mapM stringBytes
  .ok (bytes16 count ++ bytes16 numbers ++ bytes16 strings ++ code ++ numberBytes ++
    strings'.flatten)

/-- The length of what a callable has in front of its scope. -/
def callableHead : Nat := 4

def callableBytes (v : Vocabulary) (c : Callable) (s : Scope) :
    Except ImageError (List UInt8) := do
  let body ← scopeBytes v s
  let name ← pointer16 .name (callableHead + body.length)
  let params ← count8 .parameters c.params.length
  .ok (c.refCount :: byte params :: bytes16 name ++ body ++ c.ident.name.toUTF8.data.toList ++ [0])

/-! ## Whole images

The pools of scopes and the tables of callables are written in their own order, which is the order
of their ids. -/

/-- The scope of a callable that was compiled at this depth. -/
def bodyAt? (p : Program) (depth : Nat) (c : Callable) : Option Scope :=
  if c.depth = depth then c.body.bind p.scope? else none

/-- What stands in the slot of a callable, or nothing. -/
def callableSlot (v : Vocabulary) (p : Program) (depth : Nat) (c : Callable) :
    Except ImageError (Option (List UInt8)) :=
  match bodyAt? p depth c with
  | none => .ok none
  | some s => (callableBytes v c s).map some

/-- What stands in the slot of an anonymous scope. -/
def scopeSlot (v : Vocabulary) (p : Program) (id : ScopeId) :
    Except ImageError (Option (List UInt8)) :=
  match p.scope? id with
  | none => .ok none
  | some s => (scopeBytes v s).map some

/-- The slots of the scripts. The first belongs to `main`, whether there is one or not. -/
def scriptSlots (v : Vocabulary) (p : Program) (depth : Nat) :
    Except ImageError (List (Option (List UInt8))) := do
  let main ← match p.main with
    | some c => callableSlot v p depth c
    | none => .ok none
  let rest ← p.scripts.values.mapM (callableSlot v p depth)
  .ok (main :: rest)

/-- The pointers to bodies put one behind the other from `offset` on; an empty slot gets zero.
`done` holds the pointers already made, last one first. -/
def pointers (offset : Nat) (done : List Nat) :
    List (Option (List UInt8)) → Except ImageError (List Nat)
  | [] => .ok done.reverse
  | none :: rest => pointers offset (0 :: done) rest
  | some body :: rest =>
    if offset < Nat.pow 2 32 then pointers (offset + body.length) (offset :: done) rest
    else .error (.pointerOverflow .body offset)

def headerLength (scripts functions scopes : Nat) : Nat :=
  2 + 4 * scripts + 1 + 4 * functions + 2 + 4 * scopes

end Image

/-- The image of everything a program has at one depth. -/
def image (p : Program) (depth : Nat) (v : Vocabulary) : Except ImageError (List UInt8) := do
  let scripts ← Image.scriptSlots v p depth
  let functions ← p.functions.values.mapM (Image.callableSlot v p depth)
  let scopes ← (p.anonymous depth).toList.mapM (Image.scopeSlot v p)
  let globalCount ← Image.count8 .globals p.globals.size
  let scriptCount ← Image.count8 .scripts scripts.length
  let functionCount ← Image.count8 .functions functions.length
  let scopeCount ← Image.count16 .anonymousScopes scopes.length
  let slots := scripts ++ functions ++ scopes
  let start := Image.headerLength scripts.length functions.length scopes.length
  let pointers ← Image.pointers start [] slots
  let scriptPointers := pointers.take scripts.length
  let functionPointers := (pointers.drop scripts.length).take functions.length
  let scopePointers := pointers.drop (scripts.length + functions.length)
  .ok (Image.byte globalCount :: Image.byte scriptCount :: scriptPointers.flatMap Image.bytes32 ++
    Image.byte functionCount :: functionPointers.flatMap Image.bytes32 ++
    Image.bytes16 scopeCount ++ scopePointers.flatMap Image.bytes32 ++
    slots.flatMap (·.getD []))

end CharacterScript
