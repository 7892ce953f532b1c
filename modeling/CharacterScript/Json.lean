/-!
# JSON

Values of the JSON format as this library writes them, and how they are written: settings are kept
in it, and tools are answered in it. All numbers written are whole. Reading goes straight from the
text to what is wanted from it, see `Json.Reader`.

## The layout

Every item and every member gets a line of its own, two blanks deeper than the list or object it
belongs to. Empty ones stay on their line. In a string only what cannot stand there as it is gets an
escape.
-/

namespace CharacterScript

inductive Json where
  | null
  | bool (b : Bool)
  | nat (n : Nat)
  | text (s : String)
  | arr (items : List Json)
  /-- An object with its members in order. -/
  | fields (members : List (String × Json))

namespace Json

def opt {α : Type} (f : α → Json) : Option α → Json
  | some a => f a
  | none => .null

/-- The characters with an escape of one letter, by that letter. -/
def letters : List (Char × Char) :=
  [('"', '"'), ('\\', '\\'), ('b', '\x08'), ('f', '\x0c'), ('n', '\n'), ('r', '\r'), ('t', '\t')]

/-- The control characters, which a string cannot hold as they are. -/
def isControl (c : Char) : Bool :=
  c.toNat < 0x20

/-! ## Writing -/

/-- How one character of a string is written. -/
def writeChar (c : Char) : List Char :=
  match letters.find? (·.2 == c) with
  | some (letter, _) => ['\\', letter]
  | none =>
    if isControl c then
      ['\\', 'u', '0', '0', Nat.digitChar (c.toNat / 16), Nat.digitChar (c.toNat % 16)]
    else [c]

def quoted (s : String) : String :=
  String.ofList ('"' :: (s.toList.flatMap writeChar ++ ['"']))

/-- The start of a line at a depth. -/
def margin (depth : Nat) : String :=
  "\n" ++ String.ofList (List.replicate (2 * depth) ' ')

/-- Lines of their own inside a pair of brackets, at a depth. -/
def bracketed (depth : Nat) (left right : String) (rows : List String) : String :=
  if rows.isEmpty then left ++ right
  else left ++ margin (depth + 1) ++ ("," ++ margin (depth + 1)).intercalate rows ++
    margin depth ++ right

mutual

/-- A value whose first line is already at its depth. -/
def layout (depth : Nat) : Json → String
  | .null => "null"
  | .bool true => "true"
  | .bool false => "false"
  | .nat n => String.ofList (Nat.toDigits 10 n)
  | .text s => quoted s
  | .arr items => bracketed depth "[" "]" (layoutItems (depth + 1) items)
  | .fields members => bracketed depth "\x7b" "\x7d" (layoutMembers (depth + 1) members)

def layoutItems (depth : Nat) : List Json → List String
  | [] => []
  | v :: vs => layout depth v :: layoutItems depth vs

def layoutMembers (depth : Nat) : List (String × Json) → List String
  | [] => []
  | (key, v) :: rest => (quoted key ++ ": " ++ layout depth v) :: layoutMembers depth rest

end

def render (v : Json) : String :=
  layout 0 v

example : quoted "a\"\n\x01é" = "\"a\\\"\\n\\u0001é\"" := by decide +kernel

end Json

end CharacterScript
