import CharacterScript.Table
import CharacterScript.Text.Class

/-!
# The vocabulary of the runtime

The commands a runtime offers, with their opcodes, and the global slots it has. The vocabulary is
read from a text with one entry to a line:

    cmd Print: 0x01 value
    cmd Wait: .. frames
    glob Health: 0x20
    glob Speed: ..

## The counter

An explicit id sets a running counter; `..`, or nothing, takes its next value. Commands and globals
share the counter. A line that starts otherwise is ignored, and a name given twice keeps its place
and takes the later entry.

## Commands with any number of arguments

A command whose name is that of the printing command takes its parameters and as many arguments
more as are given. All other commands take exactly as many as they have parameters, and none of
them are references.

## Writing a listing

The listing gives every id explicitly, so it does not depend on the counter, and it has the
commands first. Reading the listing of a vocabulary that was read gives the same vocabulary again.
-/

namespace CharacterScript
namespace Vocabulary

/-- A command the runtime provides. -/
structure Command where
  /-- The name it is called by. -/
  name : String
  /-- The number the image has for it. -/
  opcode : UInt16
  /-- The names of its parameters. -/
  params : List String
  deriving DecidableEq

/-- The one command that takes any number of arguments, but at least one. -/
def variadicName : String := "Print"

def Command.arity (c : Command) : Nat :=
  c.params.length

def Command.isVariadic (c : Command) : Bool :=
  c.name == variadicName

/-- A global variable the runtime provides. -/
structure Global where
  /-- The name it is read by. -/
  name : String
  /-- The number the image has for it. -/
  slot : UInt16
  deriving DecidableEq

/-- The two kinds of entry. -/
inductive EntryKind where
  | cmd | glob
  deriving DecidableEq

def EntryKind.word : EntryKind → String
  | cmd => "cmd"
  | glob => "glob"

/-- Why a vocabulary cannot be read. Lines are counted from one. -/
inductive Fault where
  | malformed (line : Nat) (kind : EntryKind) (text : String)
  | idOutOfRange (line : Nat) (id : Nat)
  deriving DecidableEq

def Fault.message : Fault → String
  | malformed line kind text =>
    "line " ++ toString line ++ ": malformed " ++ kind.word ++ " entry '" ++ text ++ "'"
  | idOutOfRange line id =>
    "line " ++ toString line ++ ": id 0x" ++ String.ofList (Nat.toDigits 16 id) ++
      " does not fit in 16 bits"

end Vocabulary

/-- What the runtime provides: the names a script may use without a declaration. -/
structure Vocabulary where
  /-- The commands, by name. -/
  commands : Table Vocabulary.Command
  /-- The global variables, by name. -/
  globals : Table Vocabulary.Global

namespace Vocabulary

def empty : Vocabulary := ⟨.empty, .empty⟩

instance : Inhabited Vocabulary := ⟨empty⟩

def command? (v : Vocabulary) (name : String) : Option Command :=
  v.commands.get? name

def global? (v : Vocabulary) (name : String) : Option Global :=
  v.globals.get? name

def isEmpty (v : Vocabulary) : Bool :=
  v.commands.size == 0 && v.globals.size == 0

/-! ## Reading

Lines are independent of each other but for the counter and for names that come twice. A line with
a fault ends the reading, and the fault says which line it is. -/

/-- The kind of entry a line starts with, and what follows. -/
def entryKind? (line : List Char) : Option (EntryKind × List Char) :=
  if "cmd ".toList.isPrefixOf line then some (.cmd, line.drop 4)
  else if "glob ".toList.isPrefixOf line then some (.glob, line.drop 5)
  else none

/-- The name before the first colon, trimmed, and what follows the colon. -/
def entryName? (rest : List Char) : Option (String × List Char) :=
  let before := rest.takeWhile (· != ':')
  let name := trim before
  if before.length < rest.length && !name.isEmpty && name.all isWordChar then
    some (String.ofList name, rest.drop (before.length + 1))
  else none

/-- A hexadecimal number of at most 64 bits, which may have a plus sign in front. -/
def hexId? (word : List Char) : Option Nat :=
  let digits := match word with
    | '+' :: rest => rest
    | _ => word
  if !digits.isEmpty && digits.all isHexDigit && hexNumber digits < Nat.pow 2 64 then
    some (hexNumber digits)
  else none

/-- The id of an entry and its parameters, from the words after the colon and the counter. There is
no answer if the first word looks like an id and is none. -/
def entryId? (next : Nat) (words : List (List Char)) : Option (Nat × List (List Char)) :=
  match words with
  | ('0' :: 'x' :: digits) :: params | ('0' :: 'X' :: digits) :: params =>
    (hexId? digits).map (·, params)
  | ['.', '.'] :: params => some (next, params)
  | params => some (next, params)

/-- The vocabulary with one more entry. -/
def insert (v : Vocabulary) (kind : EntryKind) (name : String) (id : UInt16)
    (params : List String) : Vocabulary :=
  match kind with
  | .cmd => { v with commands := v.commands.insert name ⟨name, id, params⟩ }
  | .glob => { v with globals := v.globals.insert name ⟨name, id⟩ }

/-- Reads lines on from line number `n`, with the counter at `next`. -/
def readLines (n next : Nat) (v : Vocabulary) : List (List Char) → Except Fault Vocabulary
  | [] => .ok v
  | line :: lines =>
    match entryKind? line with
    | none => readLines (n + 1) next v lines
    | some (kind, rest) =>
      match entryName? rest with
      | none => .error (.malformed n kind (String.ofList line))
      | some (name, rest) =>
        match entryId? next (words rest) with
        | none => .error (.malformed n kind (String.ofList line))
        | some (id, params) =>
          if id < Nat.pow 2 16 then
            let v := v.insert kind name (UInt16.ofNat id) (params.map String.ofList)
            readLines (n + 1) (id + 1) v lines
          else .error (.idOutOfRange n id)

/-- Reads a vocabulary. -/
def parse (text : String) : Except Fault Vocabulary :=
  readLines 1 0 empty (lines text.toList)

/-! ## Writing -/

/-- An id with at least two capital digits. -/
def idText (id : UInt16) : String :=
  let digits := (Nat.toDigits 16 id.toNat).map Char.toUpper
  "0x" ++ String.ofList (if digits.length < 2 then '0' :: digits else digits)

/-- One line for each command and each global. -/
def listing (v : Vocabulary) : List String :=
  (v.commands.values.map fun c ↦
    "cmd " ++ c.name ++ ": " ++ idText c.opcode ++ " " ++ " ".intercalate c.params) ++
  v.globals.values.map fun g ↦ "glob " ++ g.name ++ ": " ++ idText g.slot

end Vocabulary

end CharacterScript
