import CharacterScript.Project.Error
import CharacterScript.Settings
import CharacterScript.SourceMap
import CharacterScript.Text.Class

/-!
# Projects

A project is a script directory together with the directories it builds on: the entry file of each
may name a base. Loading a project finds the whole chain, the base of all first, and stitches the
source files of each directory into one text.

## Finding the base

The base is looked for in the lines of the entry file, before anything is cut into tokens, since
the files of the base have to be there when the first layer is compiled. So the search knows
nothing of comments, and what it finds need not be what the layer records when its directives are
read.

## The search ends

A chain is followed by real paths, so a directory that is reached in two ways is known to be one.
No directory is visited twice, and there are no more of them than the disk has places: with this
number of steps the search never runs out of them before it runs into a circle.
-/

namespace CharacterScript
namespace Project

/-! ## Where things are

These are all texts that are put together; whether there is anything at a path is asked later. -/

def settingsFile (dir : Path) : Path :=
  dir.join "raic.json"

def entryFile (dir : Path) (name : String) : Path :=
  dir.join name

/-- A base is named from the directory that holds the script directory. -/
def baseDir (dir : Path) (base : String) : Path :=
  (dir.parent?.getD dir).join base

/-- An output is named from the character directory if there is one, and otherwise from the script
directory. -/
def outputFile (dir : Path) (characterDir : Option Path) (output : String) : Path :=
  (characterDir.getD dir).join output

end Project

/-- A script directory that has been read. -/
structure ScriptDir where
  /-- The directory, as it was named. -/
  dir : Path
  /-- The source files in the order they were stitched in. -/
  files : List Path
  /-- The files stitched together, each behind a line with its path. -/
  source : String
  /-- The base the entry file names, as it is written there. -/
  base : Option String

namespace Project

/-! ## Loading

Files are taken in the order of their names, which is the order of their bytes and the same on
every disk. -/

/-- The base that an entry file names: the rest of its first line that starts with the directive. -/
def scanBase? (text : String) : Option String :=
  (lines text.toList).findSome? fun line ↦
    let line := trim line
    if "#extends ".toList.isPrefixOf line then some (String.ofList (trim (line.drop 9))) else none

example : scanBase? "#out a\n  #extends ../b \n#extends c" = some "../b" := by decide +kernel
example : scanBase? "#extends" = none := by decide +kernel

/-- Whether a path has the extension of source files. -/
def hasExtension (extension : String) (p : Path) : Bool :=
  p.extension? == some extension

/-- Those of the paths that are files. -/
def filesAmong : List Path → DiskM (List Path)
  | [] => pure []
  | p :: ps => do
    let isFile ← Disk.isFile p
    let rest ← filesAmong ps
    return if isFile then p :: rest else rest

/-- The source files of a directory, in order. -/
def sourceFiles (settings : Settings) (dir : Path) : ProjectM (List Path) := do
  let names ← onDisk (Disk.list dir)
  let sorted := names.mergeSort fun a b ↦ decide (a ≤ b)
  filesAmong ((sorted.map dir.join).filter (hasExtension settings.extension))

def readAll : List Path → ProjectM (List (String × String))
  | [] => pure []
  | p :: ps => do
    let content ← onDisk (Disk.readText p)
    let rest ← readAll ps
    return (p.text, content) :: rest

/-- Reads the source files of a directory. -/
def readDir (settings : Settings) (dir : Path) (base : Option String) : ProjectM ScriptDir := do
  let files ← sourceFiles settings dir
  let contents ← readAll files
  return ⟨dir, files, stitch contents, base⟩

/-- Loads a directory and all below it in the chain. `visited` holds the directories above. They
differ from each other, so when none of the steps are left all there are have been visited. -/
def loadFrom (settings : Settings) : Nat → List Path → Path → ProjectM (List ScriptDir)
  | 0, _, dir => throw (.cycle dir)
  | steps + 1, visited, dir => do
    let real ← ExceptT.adapt (ProjectError.noDirectory dir) (Disk.realPath dir)
    if visited.contains real then throw (.cycle real)
    let entry := entryFile real settings.entryFile
    unless ← Disk.isFile entry do throw (.noEntryFile settings.entryFile real)
    let base := scanBase? (← onDisk (Disk.readText entry))
    let below ← match base with
      | some b => loadFrom settings steps (real :: visited) (baseDir real b)
      | none => pure []
    return below ++ [← readDir settings real base]

/-- Loads a script directory and the chain it builds on, the base of all first. -/
def loadChain (settings : Settings) (dir : Path) : ProjectM (List ScriptDir) := do
  loadFrom settings ((← Disk.extent) + 1) [] dir

end Project

end CharacterScript
