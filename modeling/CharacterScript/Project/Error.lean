import CharacterScript.Disk
import CharacterScript.Json.Fault

/-!
# What is wrong with a project

A project is the script directories of a chain and the settings that go with them. It can be out of
order before a single script is compiled.

## Names in messages

Each error keeps the paths and names it is about, and the message is put together from them at the
end. An error of the disk is passed on as it is: which file was asked for is not part of it, as
the disk itself does not say so.
-/

namespace CharacterScript

inductive ProjectError where
  | disk (e : DiskError)
  /-- The settings file is not JSON, or not of the right form. -/
  | malformedSettings (e : Json.Error)
  /-- The settings are of a later version than this one. -/
  | newerSettings (version supported : Nat)
  /-- A script directory cannot be found. -/
  | noDirectory (dir : Path) (e : DiskError)
  /-- A script directory is its own base, directly or not. -/
  | cycle (dir : Path)
  | noEntryFile (entryFile : String) (dir : Path)

namespace ProjectError

/-- What is wrong, without saying of what kind it is. -/
def detail : ProjectError → String
  | disk e => e.message
  | malformedSettings e => e.message
  | newerSettings version supported =>
    "Settings version " ++ toString version ++ " is newer than supported version " ++
      toString supported
  | noDirectory dir e => "script directory " ++ dir.text ++ ": " ++ e.message
  | cycle dir => "#extends cycle through " ++ dir.text
  | noEntryFile entryFile dir => "no " ++ entryFile ++ " in " ++ dir.text

def message : ProjectError → String
  | disk e => "I/O error: " ++ e.message
  | malformedSettings e => "JSON error: " ++ e.message
  | e => "Invalid project: " ++ e.detail

end ProjectError

/-- Work on a project: it asks the disk, and may find the project out of order. -/
abbrev ProjectM := ExceptT ProjectError DiskM

/-- What the disk refuses is an error of the project. -/
def onDisk {α : Type} (x : ExceptT DiskError DiskM α) : ProjectM α :=
  ExceptT.adapt ProjectError.disk x

end CharacterScript
