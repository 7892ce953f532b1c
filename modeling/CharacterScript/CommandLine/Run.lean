import CharacterScript.CommandLine.Report
import CharacterScript.Settings.Parser

/-!
# Running a command line

A run reads its arguments, then the settings with what the flags override, and then makes its one
request of a new workspace.

## Settings come first

The settings are read for every request, also for one that does without them, so a broken settings
file makes every request fail in the same way. What flags set replaces what the file says, and
paths given by flags are not checked: the first request that uses one will see whether it is
there.

The settings file need not exist. The request `init` is there to write it, and writes what is in
effect: the flags of that run become part of the file.
-/

namespace CharacterScript
namespace CommandLine

/-- The settings file in use. -/
def settingsFile (options : Options) : ProjectM Path := do
  match options.settings with
  | some p => return p
  | none => return Project.settingsFile (← onDisk Disk.currentDir)

/-- The settings of the file with what the flags override. -/
def effectiveSettings (options : Options) : ProjectM Settings := do
  let loaded ← Settings.load (← settingsFile options)
  return { loaded with
    vocabularyFile := options.vocabulary <|> loaded.vocabularyFile
    characterDir := options.characterDir <|> loaded.characterDir }

/-- Answers a request. -/
def answer (options : Options) : Request → WorkspaceM Result
  | .build dir => return .written (← Workspace.build dir)
  | .check dir => return .checked (← Workspace.check dir)
  | .symbols dir none => return .symbols (← Workspace.symbols dir)
  | .symbols dir (some callable) => return .symbols (← Workspace.symbolsIn dir callable)
  | .definition dir name => return .definition (← Workspace.definition dir name)
  | .vocabulary => return .vocabulary (← Workspace.vocabulary)
  | .init => do
    let settings := (← get).settings
    let file ← Workspace.onProject (settingsFile options)
    Workspace.onProject (Settings.save file settings)
    return .saved file settings

/-- Answers a request with the settings in use. -/
def execute (options : Options) (request : Request) : DiskM (Except Failure Result) := do
  match ← Disk.attempt (effectiveSettings options) with
  | .error e => return .error (.project e)
  | .ok settings => (·.1) <$> (answer options request).run.run (Workspace.new settings)

/-- Runs the program on its arguments. -/
def run (args : List String) : DiskM Report :=
  match parse args with
  | .error stop => return .ofStop stop
  | .ok (options, request) => do
    match ← execute options request with
    | .ok result => return .ofResult options.json result
    | .error failure => return .ofFailure options.json failure

end CommandLine

end CharacterScript
