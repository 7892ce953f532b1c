import CharacterScript.Number.Shortest
import CharacterScript.Text.Quoted
import CharacterScript.Text.Span

/-!
# What is wrong with a JSON text

A reader that gives up says why, and how many bytes of the text it had not used. Counting from the
end, it need not know where in the text it is; `Error.locate` turns the count into a line and a
column. Lines start at one. The column is the number of bytes used up in the line, which makes it
the column of the last of them if columns start at one.

## Two moments

Some faults are noticed when a character has been used, others when it has only been looked at,
and the place that is shown differs by it. So a fault is made with what is left behind the
character (`Fault.on`) or in front of it (`Fault.before`), and each reader says which it means.

A message ends with the place, as tools that show the settings file expect it.
-/

namespace CharacterScript
namespace Json

/-- A value that was found where another was wanted, as far as a message shows it. -/
inductive Found where
  | null
  | bool (b : Bool)
  | integer (n : Int)
  | float (x : Float)
  | text (s : String)
  | list
  | object

def Found.describe : Found → String
  | null => "null"
  | bool true => "boolean `true`"
  | bool false => "boolean `false`"
  | integer n => "integer `" ++ toString n ++ "`"
  | float x => "floating point `" ++ pointedText x ++ "`"
  | text s => "string " ++ quote s
  | list => "sequence"
  | object => "map"

/-- Why a text cannot be read. -/
inductive Cause where
  | endInList | endInObject | endInString | endInValue
  | noColon | noListComma | noObjectComma | noWord | noValue
  | escape | number | numberRange | loneSurrogate | cutSurrogate | control
  | key | trailingComma | trailing
  | wrongType (found : Found) (wanted : String)
  | wrongValue (n : Int) (wanted : String)
  | tooShort (length : Nat) (wanted : String)
  | missing (field : String)
  | repeated (field : String)

def Cause.message : Cause → String
  | endInList => "EOF while parsing a list"
  | endInObject => "EOF while parsing an object"
  | endInString => "EOF while parsing a string"
  | endInValue => "EOF while parsing a value"
  | noColon => "expected `:`"
  | noListComma => "expected `,` or `]`"
  | noObjectComma => "expected `,` or `\x7d`"
  | noWord => "expected ident"
  | noValue => "expected value"
  | escape => "invalid escape"
  | number => "invalid number"
  | numberRange => "number out of range"
  | loneSurrogate => "lone leading surrogate in hex escape"
  | cutSurrogate => "unexpected end of hex escape"
  | control => "control character (\\u0000-\\u001F) found while parsing a string"
  | key => "key must be a string"
  | trailingComma => "trailing comma"
  | trailing => "trailing characters"
  | wrongType found wanted => "invalid type: " ++ found.describe ++ ", expected " ++ wanted
  | wrongValue n wanted => "invalid value: " ++ (Found.integer n).describe ++
    ", expected " ++ wanted
  | tooShort length wanted =>
    "invalid length " ++ toString length ++ ", expected " ++ wanted
  | missing field => "missing field `" ++ field ++ "`"
  | repeated field => "duplicate field `" ++ field ++ "`"

/-- A cause, and how many bytes of the text were not used. -/
structure Fault where
  /-- What is wrong. -/
  cause : Cause
  /-- How many bytes were left when it was noticed. -/
  left : Nat

namespace Fault

/-- Gives up with the text ahead not used. -/
def before {α : Type} (cause : Cause) (ahead : List Char) : Except Fault α :=
  .error ⟨cause, byteLength ahead⟩

/-- Gives up because of the first byte ahead, which counts as used. -/
def on {α : Type} (cause : Cause) (ahead : List Char) : Except Fault α :=
  .error ⟨cause, byteLength ahead - 1⟩

end Fault

/-- A cause and its place in the text. -/
structure Error where
  /-- What is wrong. -/
  cause : Cause
  /-- The line, counted from one. -/
  line : Nat
  /-- The bytes of that line up to the place. -/
  column : Nat

namespace Error

/-- The line and the column after the first `used` bytes of a text, from a line and a column on. A
character may be used in part. -/
def placeAfter (used line column : Nat) : List Char → Nat × Nat
  | [] => (line, column)
  | c :: cs =>
    if used < c.utf8Size then (line, column + used)
    else if c = '\n' then placeAfter (used - 1) (line + 1) 0 cs
    else placeAfter (used - c.utf8Size) line (column + c.utf8Size) cs

def locate (source : List Char) (fault : Fault) : Error :=
  let (line, column) := placeAfter (byteLength source - fault.left) 1 0 source
  ⟨fault.cause, line, column⟩

def message (e : Error) : String :=
  e.cause.message ++ " at line " ++ toString e.line ++ " column " ++ toString e.column

example : placeAfter 5 1 0 "é\nab".toList = (2, 2) := by decide +kernel

end Error

end Json

end CharacterScript
