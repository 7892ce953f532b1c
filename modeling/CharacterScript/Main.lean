import CharacterScript.CommandLine.Run

/-!
# The program

Answers the questions of a run from the real disk, and prints its report.

## The only effects

All else in this library is a function of its arguments. Here the questions of a `DiskM` are put
to the operating system, one at a time and each at most once, and what the system says is turned
into the answers and errors of `Disk`. An error that has no name there keeps its number, so that
its message can be shown.

The question that has no counterpart, `extent`, is answered with a number so large that no walk on
a real disk comes near it.
-/

namespace CharacterScript

/-- The number and the words of the system for an error. -/
def systemError? : IO.Error → Option (UInt32 × String)
  | .alreadyExists _ n s | .otherError n s | .resourceBusy n s | .resourceVanished n s
  | .unsupportedOperation n s | .hardwareFault n s | .unsatisfiedConstraints n s
  | .illegalOperation n s | .protocolError n s | .timeExpired n s | .interrupted _ n s
  | .noFileOrDirectory _ n s | .invalidArgument _ n s | .permissionDenied _ n s
  | .resourceExhausted _ n s | .inappropriateType _ n s | .noSuchThing _ n s => some (n, s)
  | .unexpectedEof | .userError _ => none

/-- The number of an error, which some calls give with its sign changed. -/
def systemNumber (n : UInt32) : Nat :=
  min n.toNat (-n).toNat

/-- The errors that the system has a number for. -/
def numbered : List DiskError :=
  [.notFound, .busy, .alreadyExists, .notDirectory, .isDirectory, .invalid, .nameTooLong, .notEmpty]

def DiskError.ofSystem (e : IO.Error) : DiskError :=
  match systemError? e with
  | none => .other (toString e)
  | some (n, s) =>
    (numbered.find? (·.number? == some (systemNumber n))).getD
      (.other (s ++ " (os error " ++ toString (systemNumber n) ++ ")"))

/-- What the system answers about a path, or why it does not. -/
def fromSystem {α : Type} (p : Path) (x : IO α) : IO (Except DiskError α) := do
  if p.text.isEmpty then return .error .notFound
  if p.text.toList.contains '\x00' then return .error .nullInName
  match ← x.toBaseIO with
  | .ok a => return .ok a
  | .error e => return .error (.ofSystem e)

def statOfMetadata (m : IO.FS.Metadata) : Stat where
  type := match m.type with
    | .file => .file
    | .dir => .directory
    | _ => .other
  modified := m.modified.sec * 1000000000 + m.modified.nsec.toNat

/-- Answers a question from the real disk. -/
def Query.perform : (q : Query) → IO q.Answer
  | .stat p => fromSystem p do return statOfMetadata (← ((← IO.currentDir) / p.text).metadata)
  | .realPath p => fromSystem p do
    -- Asked first for the reason, if there is nothing at the path.
    discard ((← IO.currentDir) / p.text).metadata
    return ⟨(← IO.FS.realPath p.text).toString⟩
  | .read p => fromSystem p (IO.FS.readBinFile p.text)
  | .list p => fromSystem p do
    return (← ((← IO.currentDir) / p.text).readDir).toList.map (·.fileName)
  | .create p => fromSystem p (IO.FS.writeBinFile p.text .empty)
  | .write p data => fromSystem p (IO.FS.writeBinFile p.text data)
  | .rename p q => fromSystem p (IO.FS.rename p.text q.text)
  | .makeDir p => fromSystem p (IO.FS.createDir p.text)
  | .currentDir => fromSystem ⟨"."⟩ do return ⟨(← IO.currentDir).toString⟩
  | .extent => show IO Nat from return Nat.pow 2 64

/-- Carries out a computation on the real disk. -/
def DiskM.perform {α : Type} : DiskM α → IO α
  | .done a => return a
  | .ask q next => do (next (← q.perform)).perform

end CharacterScript

def main (args : List String) : IO UInt32 := do
  let report ← (CharacterScript.CommandLine.run args).perform
  IO.print report.output
  IO.eprint report.errors
  return report.exitCode
