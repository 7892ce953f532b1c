import CharacterScript.Json
import CharacterScript.Path

/-!
# Settings

The settings of a project, and the form in which they are written.

## Two defaults

What a file leaves out has the value a new `Settings` has, and that is the only place where
defaults are written down. Two of the fields have no default but may be missing for good: without
a vocabulary nothing is known of the runtime, and without a directory for images each output path
starts where its scripts are.

A file in a version newer than `currentVersion` cannot be used. There has been only one version so
far.
-/

namespace CharacterScript

/-- What the user has set, with what holds where nothing is set. -/
structure Settings where
  /-- The version of the format the settings file is in. -/
  version : Nat := 1
  /-- The file with the vocabulary of the runtime. Without one the vocabulary is empty. -/
  vocabularyFile : Option Path := none
  /-- Where output paths start. Without one each starts at its script directory. -/
  characterDir : Option Path := none
  /-- The file of a script directory that may name its base and its output. -/
  entryFile : String := "main.rai"
  /-- The extension of source files. -/
  extension : String := "rai"
  deriving DecidableEq

namespace Settings

/-- The latest version there is. -/
def currentVersion : Nat := 1

/-- A setting, apart from its value. -/
inductive Field where
  | version | vocabularyFile | characterDir | entryFile | extension
  deriving DecidableEq

namespace Field

def key : Field → String
  | version => "version"
  | vocabularyFile => "builtins_path"
  | characterDir => "character_dir"
  | entryFile => "entry_file"
  | extension => "extension"

/-- All fields, in the order in which they are written. -/
def all : List Field :=
  [version, vocabularyFile, characterDir, entryFile, extension]

def ofKey? (key : String) : Option Field :=
  all.find? (·.key == key)

end Field

/-- The value of a field as it is written. -/
def fieldJson (s : Settings) : Field → Json
  | .version => .nat s.version
  | .vocabularyFile => .opt (fun p ↦ .text p.text) s.vocabularyFile
  | .characterDir => .opt (fun p ↦ .text p.text) s.characterDir
  | .entryFile => .text s.entryFile
  | .extension => .text s.extension

def toJson (s : Settings) : Json :=
  .fields (Field.all.map fun f ↦ (f.key, s.fieldJson f))

end Settings

end CharacterScript
