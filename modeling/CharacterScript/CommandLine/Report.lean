import CharacterScript.CommandLine
import CharacterScript.Json
import CharacterScript.Workspace

/-!
# What the command line prints

Each result has two forms: lines to be read by people, and JSON for tools.

## Where it goes

A result goes to the output. A failure goes to the errors, so that the output of a run that fails
is empty, but where JSON was asked for the failure is the output: a tool reads one stream and
finds an answer there in any case.

The code a run ends with is zero if it did what was asked for, one if it failed, and two if its
arguments were not understood.
-/

namespace CharacterScript

/-! ## JSON forms

A field with nothing to say is `null` and not left out, so objects of one kind have the same
fields in the same order. -/

def Position.toJson (p : Position) : Json :=
  .fields [("file", .text p.file), ("line", .nat p.line), ("column", .nat p.column),
    ("end_column", .nat p.endColumn)]

def Identifier.toJson (i : Identifier) : Json :=
  .fields [("kind", .text i.kind.word), ("name", .text i.name), ("pos", i.pos.toJson)]

def Symbol.toJson (s : Symbol) : Json :=
  .fields [("name", .text s.name), ("kind", .text s.kind.word), ("detail", .opt .text s.detail),
    ("pos", .opt Position.toJson s.pos)]

def Vocabulary.Command.toJson (c : Vocabulary.Command) : Json :=
  .fields [("name", .text c.name), ("opcode", .nat c.opcode.toNat),
    ("params", .arr (c.params.map .text))]

def Vocabulary.Global.toJson (g : Vocabulary.Global) : Json :=
  .fields [("name", .text g.name), ("slot", .nat g.slot.toNat)]

def Vocabulary.toJson (v : Vocabulary) : Json :=
  .fields [("commands", .arr (v.commands.values.map Command.toJson)),
    ("globals", .arr (v.globals.values.map Global.toJson))]

def Diagnostic.toJson (d : Diagnostic) : Json :=
  .fields [("code", .text d.code), ("family", .text d.family.word), ("message", .text d.message),
    ("pos", .opt Position.toJson d.pos), ("related", .opt Position.toJson d.related)]

namespace Failure

def detailJson (f : Failure) : Json :=
  match f with
  | problem p => .fields [("diagnostic", p.diagnostic.toJson)]
  | _ => .fields [(if f.kind = .notFound then "what" else "message", .text f.detail)]

def toJson (f : Failure) : Json :=
  .fields [("code", .text f.kind.code), ("detail", f.detailJson)]

end Failure

namespace CommandLine

/-! ## Results -/

/-- The result of a request that was answered. -/
inductive Result where
  | written (files : List Path)
  | checked (c : Compiled)
  | symbols (ss : List Symbol)
  | definition (ident : Identifier)
  | vocabulary (v : Vocabulary)
  | saved (file : Path) (settings : Settings)

/-- A symbol on a line. -/
def symbolLine (s : Symbol) : String :=
  s.kind.word ++ " " ++ s.name ++ (match s.detail with
    | some detail => " " ++ detail
    | none => "")

namespace Result

def lines : Result → List String
  | written files => files.map Path.text
  | checked c =>
    (c.dirs.zip c.images).map fun (dir, image) ↦
      dir.dir.text ++ ": " ++ toString image.length ++ " bytes"
  | symbols ss => ss.map symbolLine
  | definition ident => [ident.kind.word ++ " " ++ ident.name ++ " @ " ++ ident.pos.render]
  | vocabulary v => v.listing
  | saved file _ => [file.text]

def toJson : Result → Json
  | written files => .arr (files.map fun p ↦ .text p.text)
  | checked c =>
    .fields [("layers", .arr (c.images.map fun image ↦ .nat image.length)), ("ok", .bool true)]
  | symbols ss => .arr (ss.map Symbol.toJson)
  | definition ident => ident.toJson
  | vocabulary v => v.toJson
  | saved _ settings => settings.toJson

end Result

/-! ## Reports -/

/-- All that a run of the program shows. -/
structure Report where
  /-- The code the program ends with. -/
  exitCode : UInt32
  /-- All that is written to the standard output. -/
  output : String
  /-- All that is written to the standard error. -/
  errors : String

namespace Report

/-- Lines, each with its end. -/
def block (lines : List String) : String :=
  String.join (lines.map (· ++ "\n"))

/-- A result is printed as lines, or as JSON where that was asked for. -/
def ofResult (json : Bool) (r : Result) : Report :=
  ⟨0, block (if json then [r.toJson.render] else r.lines), ""⟩

/-- A failure is printed apart from the output, but where JSON was asked for it is the output. -/
def ofFailure (json : Bool) (f : Failure) : Report :=
  if json then ⟨1, block [f.toJson.render], ""⟩
  else
    let related := f.related?.toList.map fun pos ↦ "  first declared at " ++ pos.render
    ⟨1, "", block (("Error: " ++ f.message) :: related)⟩

def versionText : String := "raic 0.1.0"

def usageText : List String :=
  ["Usage: raic [OPTIONS] <COMMAND>",
   "",
   "Commands:",
   "  build <DIR>              Compile a script directory and write its images",
   "  check <DIR>              Compile a script directory",
   "  symbols <DIR> [--in <CALLABLE>]",
   "                           List what can be named",
   "  definition <DIR> <NAME>  Say where a name is declared",
   "  builtins                 List the vocabulary of the runtime",
   "  init                     Write the settings file",
   "",
   "Options:",
   "  --settings <FILE>        The settings file, ./raic.json if not given",
   "  --builtins <FILE>        The vocabulary file, in place of that in the settings",
   "  --character-dir <DIR>    Where output paths start, in place of that in the settings",
   "  --json                   Print JSON",
   "  -v, --verbose            Accepted, and without effect",
   "  -h, --help               Print this",
   "  -V, --version            Print the version"]

def ofStop : Stop → Report
  | .usage => ⟨2, "", block usageText⟩
  | .version => ⟨0, block [versionText], ""⟩
  | .help => ⟨0, block usageText, ""⟩

end Report

end CommandLine

end CharacterScript
