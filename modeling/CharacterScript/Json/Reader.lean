import CharacterScript.Json
import CharacterScript.Json.Numeral
import CharacterScript.Text.Class

/-!
# Reading JSON

A reader takes the characters ahead and returns what it read with the characters behind it. What is
wanted of a text is known beforehand, so there is one reader for each kind of value that can be
wanted, and `skipValue` for a value that nobody wants.

## Wanted and unwanted values

The two differ in what they ask of a value. A value that is passed over may be nested to any depth,
its numbers may be of any size, and its strings may hold half of a surrogate pair.

## Nesting

What is wanted has a fixed depth, so its readers call each other. What is passed over may be
nested to any depth, and there a list of open brackets takes the place of the recursion: every
step uses a character or closes a bracket. A reader of lists or objects takes the reader of the
items as an argument.
-/

namespace CharacterScript
namespace Json

def isJsonBlank (c : Char) : Bool :=
  c == ' ' || c == '\n' || c == '\t' || c == '\r'

def skipBlanks (cs : List Char) : List Char :=
  cs.dropWhile isJsonBlank

/-- What follows a word. -/
def word : List Char → List Char → Except Fault (List Char)
  | [], cs => .ok cs
  | _ :: _, [] => Fault.before .endInValue []
  | w :: ws, c :: cs => if w = c then word ws cs else Fault.on .noWord (c :: cs)

/-! ## Strings

A string that is wanted is put together while it is read. A character beyond the first plane may
be written as two escapes, which have to be there both; passing over a string only looks for its
end, so half a pair does no harm there. -/

/-- The number that four hexadecimal digits stand for. Bytes are counted first: four that are no
digits are used up together. -/
def hexUnit (cs : List Char) : Except Fault Nat :=
  let ds := cs.take 4
  if ds.length = 4 && ds.all isHexDigit then .ok (hexNumber ds)
  else if byteLength cs < 4 then .error ⟨.endInString, 0⟩
  else .error ⟨.escape, byteLength cs - 4⟩

def isHighSurrogate (n : Nat) : Bool :=
  0xD800 ≤ n && n < 0xDC00

def isLowSurrogate (n : Nat) : Bool :=
  0xDC00 ≤ n && n < 0xE000

/-- The character that two surrogates stand for. -/
def paired (high low : Nat) : Char :=
  Char.ofNat (0x10000 + (high - 0xD800) * 0x400 + (low - 0xDC00))

/-- The second half of a surrogate pair. -/
def lowSurrogate : List Char → Except Fault Nat
  | [] => Fault.before .endInString []
  | ['\\'] => Fault.before .endInString []
  | '\\' :: 'u' :: cs => do
    let n ← hexUnit cs
    if isLowSurrogate n then return n else Fault.before .loneSurrogate (cs.drop 4)
  | '\\' :: cs => Fault.on .cutSurrogate cs
  | cs => Fault.on .cutSurrogate cs

/-- An escape after its backslash: the character, and how many characters the escape takes. -/
def escape : List Char → Except Fault (Char × Nat)
  | [] => Fault.before .endInString []
  | 'u' :: cs => do
    let n ← hexUnit cs
    if isLowSurrogate n then Fault.before .loneSurrogate (cs.drop 4)
    else if isHighSurrogate n then return (paired n (← lowSurrogate (cs.drop 4)), 11)
    else return (Char.ofNat n, 5)
  | '/' :: _ => .ok ('/', 1)
  | c :: cs =>
    match letters.lookup c with
    | some meant => .ok (meant, 1)
    | none => Fault.on .escape (c :: cs)

/-- The text of a string up to its closing quote. `done` is what was read, last character first, and
`skip` how many characters ahead belong to an escape. -/
def stringFrom (done : List Char) (skip : Nat) : List Char → Except Fault (String × List Char)
  | [] => Fault.before .endInString []
  | c :: cs =>
    if 0 < skip then stringFrom done (skip - 1) cs
    else if c = '"' then .ok (String.ofList done.reverse, cs)
    else if c = '\\' then
      match escape cs with
      | .ok (meant, taken) => stringFrom (meant :: done) taken cs
      | .error fault => .error fault
    else if isControl c then Fault.on .control (c :: cs)
    else stringFrom (c :: done) 0 cs

/-- How many characters an escape takes that nobody wants. -/
def escapeLength : List Char → Except Fault Nat
  | [] => Fault.before .endInString []
  | 'u' :: cs => do
    let _ ← hexUnit cs
    return 5
  | c :: cs =>
    if c = '/' || (letters.lookup c).isSome then .ok 1 else Fault.on .escape (c :: cs)

/-- Passes over a string up to its closing quote. -/
def skipString (skip : Nat) : List Char → Except Fault (List Char)
  | [] => Fault.before .endInString []
  | c :: cs =>
    if 0 < skip then skipString (skip - 1) cs
    else if c = '"' then .ok cs
    else if c = '\\' then
      match escapeLength cs with
      | .ok taken => skipString taken cs
      | .error fault => .error fault
    else if isControl c then Fault.before .control (c :: cs)
    else skipString 0 cs

/-! ## Passing over values -/

/-- What a value is inside of. -/
inductive Frame where
  | list | object

/-- A key of an object and the colon after it. -/
def skipKey (cs : List Char) : Except Fault (List Char) :=
  match skipBlanks cs with
  | '"' :: cs => do
    match skipBlanks (← skipString 0 cs) with
    | ':' :: cs => return cs
    | [] => Fault.before .endInObject []
    | cs => Fault.on .noColon cs
  | [] => Fault.before .endInObject []
  | cs => Fault.on .key cs

/-- A value that holds no others. -/
def skipScalar : List Char → Except Fault (List Char)
  | [] => Fault.before .endInValue []
  | 'n' :: cs => word ['u', 'l', 'l'] cs
  | 't' :: cs => word ['r', 'u', 'e'] cs
  | 'f' :: cs => word ['a', 'l', 's', 'e'] cs
  | '"' :: cs => skipString 0 cs
  | '-' :: cs => skipNumber cs
  | c :: cs => if c.isDigit then skipNumber (c :: cs) else Fault.on .noValue (c :: cs)

mutual

/-- Passes over a value and all that follows it inside the given frames, innermost first. Each step
uses a character, so the length of the text bounds their number. -/
def skipInside : Nat → List Frame → List Char → Except Fault (List Char)
  | 0, _, cs => Fault.before .endInValue cs
  | fuel + 1, frames, cs =>
    match skipBlanks cs with
    | '[' :: cs =>
      match skipBlanks cs with
      | ']' :: cs => skipAfter fuel frames cs
      | [] => Fault.before .endInList []
      | cs => skipInside fuel (.list :: frames) cs
    | '{' :: cs =>
      match skipBlanks cs with
      | '}' :: cs => skipAfter fuel frames cs
      | [] => Fault.before .endInObject []
      | cs => do skipInside fuel (.object :: frames) (← skipKey cs)
    | cs => do skipAfter fuel frames (← skipScalar cs)

/-- Passes over what follows a value inside the given frames. -/
def skipAfter : Nat → List Frame → List Char → Except Fault (List Char)
  | _, [], cs => .ok cs
  | 0, _, cs => Fault.before .endInValue cs
  | fuel + 1, .list :: frames, cs =>
    match skipBlanks cs with
    | ',' :: cs => skipInside fuel (.list :: frames) cs
    | ']' :: cs => skipAfter fuel frames cs
    | [] => Fault.before .endInList []
    | cs => Fault.on .noListComma cs
  | fuel + 1, .object :: frames, cs =>
    match skipBlanks cs with
    | ',' :: cs => do skipInside fuel (.object :: frames) (← skipKey cs)
    | '}' :: cs => skipAfter fuel frames cs
    | [] => Fault.before .endInObject []
    | cs => Fault.on .noObjectComma cs

end

def skipValue (cs : List Char) : Except Fault (List Char) :=
  skipInside (cs.length + 1) [] cs

/-! ## Values that are wanted -/

/-- The value ahead as a message shows it. Lists and objects are not entered. -/
def found : List Char → Except Fault (Found × List Char)
  | 'n' :: cs => do return (.null, ← word ['u', 'l', 'l'] cs)
  | 't' :: cs => do return (.bool true, ← word ['r', 'u', 'e'] cs)
  | 'f' :: cs => do return (.bool false, ← word ['a', 'l', 's', 'e'] cs)
  | '"' :: cs => do
    let (s, rest) ← stringFrom [] 0 cs
    return (.text s, rest)
  | '-' :: cs => number true cs
  | '[' :: cs => .ok (.list, '[' :: cs)
  | '{' :: cs => .ok (.object, '{' :: cs)
  | c :: cs => if c.isDigit then number false (c :: cs) else Fault.on .noValue (c :: cs)
  | [] => Fault.before .endInValue []

/-- Gives up on a value that is not what is wanted. It is still read, and may be faulty itself. -/
def refuse {α : Type} (wanted : String) (cs : List Char) : Except Fault α := do
  let (value, rest) ← found cs
  Fault.before (.wrongType value wanted) rest

/-- A string. -/
def readText (wanted : String) (cs : List Char) : Except Fault (String × List Char) :=
  match skipBlanks cs with
  | '"' :: cs => stringFrom [] 0 cs
  | cs => refuse wanted cs

/-- A string, or the explicit absence of one. -/
def readText? (wanted : String) (cs : List Char) : Except Fault (Option String × List Char) :=
  match skipBlanks cs with
  | 'n' :: cs => do return (none, ← word ['u', 'l', 'l'] cs)
  | cs => do
    let (s, rest) ← readText wanted cs
    return (some s, rest)

/-- A whole number up to a limit. -/
def readNat (limit : Nat) (wanted : String) (cs : List Char) : Except Fault (Nat × List Char) := do
  match ← found (skipBlanks cs) with
  | (.integer n, rest) =>
    if 0 ≤ n ∧ n ≤ limit then return (n.toNat, rest) else Fault.before (.wrongValue n wanted) rest
  | (value, rest) => Fault.before (.wrongType value wanted) rest

/-! ## Lists and objects

A comma has to stand between two items and must not stand behind the last. Where it is noticed
that one is missing decides the place the fault is shown at. -/

/-- The start of the next item of a list, or what is behind the end of the list. -/
def nextItem (first : Bool) (cs : List Char) : Except Fault (Bool × List Char) :=
  match skipBlanks cs with
  | ']' :: cs => .ok (false, cs)
  | [] => Fault.before .endInList []
  | c :: cs =>
    if first then .ok (true, c :: cs)
    else if c = ',' then
      match skipBlanks cs with
      | ']' :: cs => Fault.on .trailingComma (']' :: cs)
      | [] => Fault.before .endInValue []
      | cs => .ok (true, cs)
    else Fault.on .noListComma (c :: cs)

/-- The end of a list of which all wanted items were read. -/
def closeList (cs : List Char) : Except Fault (List Char) :=
  match skipBlanks cs with
  | ']' :: cs => .ok cs
  | ',' :: cs =>
    match skipBlanks cs with
    | ']' :: cs => Fault.on .trailingComma (']' :: cs)
    | cs => Fault.on .trailing cs
  | [] => Fault.before .endInList []
  | cs => Fault.on .trailing cs

/-- The next key of an object, or what is behind the end of the object. -/
def nextKey (first : Bool) (cs : List Char) : Except Fault (Option String × List Char) :=
  match skipBlanks cs with
  | '}' :: cs => .ok (none, cs)
  | [] => Fault.before .endInObject []
  | c :: cs => do
    let cs ←
      if first then pure (c :: cs)
      else if c = ',' then
        match skipBlanks cs with
        | '}' :: cs => Fault.on .trailingComma ('}' :: cs)
        | [] => Fault.before .endInValue []
        | cs => pure cs
      else Fault.on .noObjectComma (c :: cs)
    match cs with
    | '"' :: cs =>
      let (key, rest) ← stringFrom [] 0 cs
      return (some key, rest)
    | cs => Fault.on .key cs

/-- The colon after a key. -/
def colon (cs : List Char) : Except Fault (List Char) :=
  match skipBlanks cs with
  | ':' :: cs => .ok cs
  | [] => Fault.before .endInObject []
  | cs => Fault.on .noColon cs

/-- Gives up on a key that was there before. The end of the object counts as used if it is next. -/
def refuseKey {α : Type} (key : String) (cs : List Char) : Except Fault α :=
  match skipBlanks cs with
  | '}' :: cs => Fault.before (.repeated key) cs
  | cs => Fault.before (.repeated key) cs

/-- Reads a text that holds one value and nothing else. -/
def readWhole {α : Type} (read : List Char → Except Fault (α × List Char)) (source : String) :
    Except Error α :=
  let cs := source.toList
  let result : Except Fault α := do
    let (a, rest) ← read cs
    match skipBlanks rest with
    | [] => return a
    | rest => Fault.on .trailing rest
  result.mapError (Error.locate cs)

end Json

end CharacterScript
