import CharacterScript.Json.Reader
import CharacterScript.Project.Error
import CharacterScript.Settings

/-!
# Reading settings

Settings are an object, or a list of values in the order of the fields. Only the version has to be
given; what is left out takes its default, and a member nobody knows is passed over. Fields are
taken in the order of the text, so the first fault in the text is the one that is reported.

## The settings file

A file that is not there is as good as an empty one: all settings have their defaults. A file that
is there has to be readable, and may not be in a newer version than this library knows. Writing
one makes the directories above it, and replaces the file as a whole.
-/

namespace CharacterScript
namespace Settings

/-- The largest number that can be a version. -/
def maxVersion : Nat := 0xffffffff

/-- What a message calls settings. -/
def wanted : String := "struct CompilerSettings"

/-- The fields read so far. -/
structure Draft where
  /-- The version, once it has been read. -/
  version : Option Nat := none
  /-- The vocabulary file, once it has been read, which may be `null`. -/
  vocabularyFile : Option (Option Path) := none
  /-- The directory for images, once it has been read, which may be `null`. -/
  characterDir : Option (Option Path) := none
  /-- The name of the entry file, once it has been read. -/
  entryFile : Option String := none
  /-- The extension of source files, once it has been read. -/
  extension : Option String := none

namespace Draft

def has (d : Draft) : Field → Bool
  | .version => d.version.isSome
  | .vocabularyFile => d.vocabularyFile.isSome
  | .characterDir => d.characterDir.isSome
  | .entryFile => d.entryFile.isSome
  | .extension => d.extension.isSome

/-- The settings with a given version and the other fields as far as they were read. -/
def complete (d : Draft) (version : Nat) : Settings :=
  let defaults : Settings := {}
  { version
    vocabularyFile := d.vocabularyFile.getD defaults.vocabularyFile
    characterDir := d.characterDir.getD defaults.characterDir
    entryFile := d.entryFile.getD defaults.entryFile
    extension := d.extension.getD defaults.extension }

end Draft

open Json (Fault)

/-- A path, or the explicit absence of one. -/
def readPath? (cs : List Char) : Except Fault (Option Path × List Char) := do
  let (s, rest) ← Json.readText? "path string" cs
  return (s.map Path.mk, rest)

/-- Reads the value of a field. -/
def readField (d : Draft) (f : Field) (cs : List Char) : Except Fault (Draft × List Char) :=
  match f with
  | .version => do
    let (n, rest) ← Json.readNat maxVersion "u32" cs
    return ({ d with version := some n }, rest)
  | .vocabularyFile => do
    let (p, rest) ← readPath? cs
    return ({ d with vocabularyFile := some p }, rest)
  | .characterDir => do
    let (p, rest) ← readPath? cs
    return ({ d with characterDir := some p }, rest)
  | .entryFile => do
    let (s, rest) ← Json.readText "a string" cs
    return ({ d with entryFile := some s }, rest)
  | .extension => do
    let (s, rest) ← Json.readText "a string" cs
    return ({ d with extension := some s }, rest)

/-- Reads the members of an object to its end. Every member uses a character, so the length of the
text bounds their number. -/
def readMembers : Nat → Bool → Draft → List Char → Except Fault (Draft × List Char)
  | 0, _, _, cs => Fault.before .endInObject cs
  | fuel + 1, first, d, cs => do
    match ← Json.nextKey first cs with
    | (none, rest) => return (d, rest)
    | (some key, rest) =>
      match Field.ofKey? key with
      | none => readMembers fuel false d (← Json.skipValue (← Json.colon rest))
      | some f =>
        if d.has f then Json.refuseKey f.key rest
        else
          let (d, rest) ← readField d f (← Json.colon rest)
          readMembers fuel false d rest

/-- Reads the items of a list to its end, one for each of the given fields as long as there are
any. -/
def readItems (first : Bool) (d : Draft) :
    List Field → List Char → Except Fault (Draft × List Char)
  | [], cs => do return (d, ← Json.closeList cs)
  | f :: fs, cs => do
    let (more, cs) ← Json.nextItem first cs
    if more then
      let (d, rest) ← readField d f cs
      readItems false d fs rest
    else return (d, cs)

/-- Reads settings. A version that is missing is missed at the end. -/
def read (cs : List Char) : Except Fault (Settings × List Char) := do
  match Json.skipBlanks cs with
  | '{' :: cs =>
    let (d, rest) ← readMembers (cs.length + 1) true {} cs
    match d.version with
    | some version => return (d.complete version, rest)
    | none => Fault.before (.missing Field.version.key) rest
  | '[' :: cs =>
    let (d, rest) ← readItems true {} Field.all cs
    match d.version with
    | some version => return (d.complete version, rest)
    | none =>
      Fault.before (.tooShort 0 (wanted ++ " with " ++ toString Field.all.length ++ " elements"))
        rest
  | cs => Json.refuse wanted cs

/-- The settings that a text holds. -/
def parse (source : String) : Except Json.Error Settings :=
  Json.readWhole read source

example : (parse "\x7b\"version\": 1, \"x\": [\x7b\x7d]\x7d").toOption = some {} := by
  decide +kernel
example : (parse "[1, null, \"game\"]").toOption = some { characterDir := some ⟨"game"⟩ } := by
  decide +kernel

/-! ## The settings file -/

/-- Reads settings. Where there is no file they are the defaults. -/
def load (p : Path) : ProjectM Settings := do
  if !(← Disk.exists? p) then return {}
  match parse (← onDisk (Disk.readText p)) with
  | .error e => throw (.malformedSettings e)
  | .ok s =>
    if currentVersion < s.version then throw (.newerSettings s.version currentVersion)
    return s

/-- Writes settings, with the directories needed for their file. -/
def save (p : Path) (s : Settings) : ProjectM Unit := onDisk do
  if let some parent := p.parent? then Disk.makeDirs parent
  Disk.replace p s.toJson.render.toUTF8

end Settings

end CharacterScript
