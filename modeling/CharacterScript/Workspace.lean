import CharacterScript.Failure
import CharacterScript.Project
import CharacterScript.Session
import CharacterScript.Symbols

/-!
# Workspaces

A workspace answers requests about script directories, one after another, while the files change
underneath. It reads the vocabulary again only when its file has a new modification time, and it
keeps the last good result of every directory, so that questions about names have an answer while a
script is being edited and does not compile.

## Failures

A request that fails still leaves its mark: a vocabulary that was read stays read.

## What is remembered

A result is kept under its directory, and a later one takes its place only if it is good too.
Requests about names go through `Workspace.current`, which asks for a check and falls back on what
is kept; they never answer from it while the present scripts compile. What a check found to be
wrong is not kept: it is found again when it is asked for.

## Images

The image of a layer is taken when that layer has been compiled and before the next one, because
the next may replace what it declares. A program at the end of a chain could not be asked for
them.
-/

namespace CharacterScript

/-- A chain of script directories, compiled. -/
structure Compiled where
  /-- The base of all first; the directory at index `i` is the layer at depth `i + 1`. -/
  dirs : List ScriptDir
  /-- What all the layers add up to. -/
  program : Program
  /-- The image of each layer, taken when that layer had just been compiled. -/
  images : List (List UInt8)
  /-- The vocabulary they were compiled against. -/
  vocabulary : Vocabulary

/-- Where the image of a layer is to be written, if its entry file says. -/
def Compiled.outputFile? (c : Compiled) (settings : Settings) (index : Nat) : Option Path := do
  let dir ← c.dirs[index]?
  let output ← (← c.program.layer? (index + 1)).output
  return Project.outputFile dir.dir settings.characterDir output

/-- A vocabulary and the modification time of the file it was read from. -/
structure CachedVocabulary where
  /-- When the file was last written, at the time it was read. -/
  modified : Int
  /-- The table that was in it. -/
  vocabulary : Vocabulary

/-- What a language server keeps between requests. -/
structure Workspace where
  /-- The settings it was started with. -/
  settings : Settings
  /-- The vocabulary, if it has been read from a file. -/
  cached : Option CachedVocabulary := none
  /-- The last good results, by directory. Paths that are the same share one. -/
  good : List (Path × Compiled) := []

/-- A request to a workspace. The workspace it leaves is kept if it fails. -/
abbrev WorkspaceM := ExceptT Failure (StateT Workspace DiskM)

namespace Workspace

def new (settings : Settings) : Workspace :=
  { settings }

/-- The last good result of a directory. -/
def lastGood? (w : Workspace) (dir : Path) : Option Compiled :=
  (w.good.find? (·.1.same dir)).map (·.2)

/-- The workspace with a new good result of a directory. -/
def record (w : Workspace) (dir : Path) (c : Compiled) : Workspace :=
  { w with good := (dir, c) :: w.good.filter (!·.1.same dir) }

/-! ## Requests

Requests are computations that may ask the disk and change the workspace, and may fail without
losing either. -/

/-- Does work on a project. -/
def onProject {α : Type} (x : ProjectM α) : WorkspaceM α := do
  match ← Disk.attempt x with
  | .ok a => return a
  | .error e => throw (.project e)

/-- The failure of a step that does not touch the disk. -/
def orFail {ε α : Type} (f : ε → Failure) : Except ε α → WorkspaceM α
  | .ok a => return a
  | .error e => throw (f e)

/-- The vocabulary of the runtime. -/
def vocabulary : WorkspaceM Vocabulary := do
  let w ← get
  match w.settings.vocabularyFile with
  | none => return .empty
  | some file =>
    let stat ← orFail (.vocabularyFile file) (← Disk.attempt (Disk.stat file))
    match w.cached.filter (·.modified = stat.modified) with
    | some cached => return cached.vocabulary
    | none =>
      let text ← onProject (onDisk (Disk.readText file))
      let v ← orFail .vocabulary (Vocabulary.parse text)
      modify fun w ↦ { w with cached := some ⟨stat.modified, v⟩ }
      return v

/-- Compiles the rest of a chain, with an image of each layer as soon as it is there. `images` holds
those of the layers before, last one first. -/
def compileDirs (images : List (List UInt8)) :
    Session → List ScriptDir → Except Failure (Program × List (List UInt8))
  | s, [] => .ok (s.program, images.reverse)
  | s, dir :: dirs =>
    match s.compileLayer dir.source with
    | (.error e, _) => .error (.problem e)
    | (.ok depth, s) =>
      match CharacterScript.image s.program depth s.vocabulary with
      | .error e => .error (.image e)
      | .ok bytes => compileDirs (bytes :: images) s dirs

/-- Compiles a loaded chain. -/
def compileChain (settings : Settings) (v : Vocabulary) (dirs : List ScriptDir) :
    Except Failure Compiled := do
  let (program, images) ← compileDirs [] (Session.new v (some settings.entryFile)) dirs
  return ⟨dirs, program, images, v⟩

/-- Compiles a script directory and the chain it builds on. -/
def check (dir : Path) : WorkspaceM Compiled := do
  let v ← vocabulary
  let settings := (← get).settings
  let dirs ← onProject (Project.loadChain settings dir)
  let compiled ← orFail id (compileChain settings v dirs)
  modify (·.record dir compiled)
  return compiled

/-- The images with a place to be written to. -/
def outputs (settings : Settings) (c : Compiled) : List (Path × List UInt8) :=
  (c.images.mapIdx fun i image ↦ (c.outputFile? settings i).map (·, image)).filterMap id

/-- Writes images, with the directories needed for each. -/
def writeAll : List (Path × List UInt8) → ExceptT DiskError DiskM Unit
  | [] => pure ()
  | (p, image) :: rest => do
    if let some parent := p.parent? then Disk.makeDirs parent
    Disk.replace p ⟨image.toArray⟩
    writeAll rest

/-- Compiles a script directory and writes the image of each layer that has an output. The answer
lists the files written. -/
def build (dir : Path) : WorkspaceM (List Path) := do
  let compiled ← check dir
  let files := outputs (← get).settings compiled
  onProject (onDisk (writeAll files))
  return files.map (·.1)

/-- The present result of a directory if it compiles, and otherwise the last good one. -/
def current (dir : Path) : WorkspaceM Compiled :=
  tryCatch (check dir) fun e ↦ do
    match (← get).lastGood? dir with
    | some compiled => return compiled
    | none => throw e

/-- Everything that can be named at the top level of a directory's scripts. -/
def symbols (dir : Path) : WorkspaceM (List Symbol) := do
  let c ← current dir
  return c.program.symbols c.vocabulary

/-- Everything that can be named in the body of a script or function. -/
def symbolsIn (dir : Path) (callable : String) : WorkspaceM (List Symbol) := do
  let c ← current dir
  match c.program.bodyOf? callable with
  | some scope => return c.program.symbolsIn c.vocabulary scope
  | none => throw (.noCallable callable)

/-- Where a name is declared. -/
def definition (dir : Path) (name : String) : WorkspaceM Identifier := do
  let c ← current dir
  match c.program.definition? name with
  | some ident => return ident
  | none => throw (.noDefinition name)

end Workspace

end CharacterScript
