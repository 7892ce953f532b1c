import CharacterScript.Path

/-!
# The disk

What this library needs from a disk, as questions with answers. A `DiskM` is a computation that may
ask: it is a tree with a question at every node and a branch for every answer, so what it asks, and
in which order, is there to be read off. `Disk/Tree` answers from a tree of files held in memory,
and the command line answers from the real disk.

## Why a tree

A computation is a piece of data, and what it does to a disk is a function of it that is defined
elsewhere. So there is no need to trust a model of a file system in order to say what was asked:
that a request only looks, or in which order a file is replaced, is a fact about the tree. A
process that dies in the middle has asked the questions up to some node, and that is all there is
to say about it.

## Failing

Every question but one may be refused, with one of the errors that a disk can give. `ExceptT` on
top of `DiskM` hands refusals on, and `Disk.attempt` looks at one without failing.
-/

namespace CharacterScript

/-- Why the disk refuses. -/
inductive DiskError where
  | notFound
  | busy
  | alreadyExists
  | notDirectory
  | isDirectory
  | invalid
  | nameTooLong
  | notEmpty
  /-- A path with a null character in it, which no disk takes. -/
  | nullInName
  /-- A file that should hold text and does not. -/
  | notText
  | other (message : String)
  deriving DecidableEq

namespace DiskError

/-- The number the system has for an error. -/
def number? : DiskError → Option Nat
  | notFound => some 2
  | busy => some 16
  | alreadyExists => some 17
  | notDirectory => some 20
  | isDirectory => some 21
  | invalid => some 22
  | nameTooLong => some 36
  | notEmpty => some 39
  | nullInName | notText | other _ => none

def description : DiskError → String
  | notFound => "No such file or directory"
  | busy => "Device or resource busy"
  | alreadyExists => "File exists"
  | notDirectory => "Not a directory"
  | isDirectory => "Is a directory"
  | invalid => "Invalid argument"
  | nameTooLong => "File name too long"
  | notEmpty => "Directory not empty"
  | nullInName => "file name contained an unexpected NUL byte"
  | notText => "stream did not contain valid UTF-8"
  | other message => message

def message (e : DiskError) : String :=
  match e.number? with
  | some n => e.description ++ " (os error " ++ toString n ++ ")"
  | none => e.description

end DiskError

/-- What there is at a path. -/
inductive EntryType where
  | file | directory | other
  deriving DecidableEq

/-- What the file system tells of an entry without reading it. -/
structure Stat where
  /-- Whether the entry is a file, a directory or something else. -/
  type : EntryType
  /-- When it was last written. Only equality of two times means anything. -/
  modified : Int
  deriving DecidableEq

/-! ## Questions

`Query.extent` is no question to a real disk. It bounds walks along links and bases, whose steps
it is larger than if no place is visited twice. -/

inductive Query where
  /-- What there is at a path. -/
  | stat (p : Path)
  /-- The one absolute path without detours for what there is at a path. -/
  | realPath (p : Path)
  /-- The bytes of a file. -/
  | read (p : Path)
  /-- The names in a directory, in any order. -/
  | list (p : Path)
  /-- Makes a file, or empties the one there is. -/
  | create (p : Path)
  /-- Gives an existing file new bytes. -/
  | write (p : Path) (data : ByteArray)
  /-- Moves what there is at a path, over what there was at the other if that can be replaced. -/
  | rename (p q : Path)
  | makeDir (p : Path)
  /-- The directory that relative paths start at. -/
  | currentDir
  /-- A number that there are no more directories than. -/
  | extent

namespace Query

def Answer : Query → Type
  | stat _ => Except DiskError Stat
  | realPath _ => Except DiskError Path
  | read _ => Except DiskError ByteArray
  | list _ => Except DiskError (List String)
  | create _ => Except DiskError Unit
  | write _ _ => Except DiskError Unit
  | rename _ _ => Except DiskError Unit
  | makeDir _ => Except DiskError Unit
  | currentDir => Except DiskError Path
  | extent => Nat

end Query

/-! ## Computations that ask

The monad laws are proved here because everything proved of requests takes them apart at their
binds. -/

inductive DiskM (α : Type) where
  | done (a : α)
  | ask (q : Query) (next : q.Answer → DiskM α)

namespace DiskM

variable {α β : Type}

/-- The computation that goes on with `f` where `x` is done. -/
protected def bind : DiskM α → (α → DiskM β) → DiskM β
  | done a, f => f a
  | ask q next, f => ask q fun answer ↦ (next answer).bind f

instance : Monad DiskM where
  pure := done
  bind := DiskM.bind

@[simp] theorem pure_eq_done (a : α) : (pure a : DiskM α) = done a := rfl

@[simp] theorem done_bind (a : α) (f : α → DiskM β) : done a >>= f = f a := rfl

@[simp] theorem ask_bind (q : Query) (next : q.Answer → DiskM α) (f : α → DiskM β) :
    ask q next >>= f = ask q fun answer ↦ next answer >>= f := rfl

theorem bind_done (x : DiskM α) : (x >>= fun a ↦ done a) = x := by
  induction x with
  | done a => rfl
  | ask q next ih => simp [ih]

theorem bind_bind {γ : Type} (x : DiskM α) (f : α → DiskM β) (g : β → DiskM γ) :
    x >>= f >>= g = x >>= fun a ↦ f a >>= g := by
  induction x with
  | done a => rfl
  | ask q next ih => simp [ih]

instance : LawfulMonad DiskM :=
  LawfulMonad.mk' DiskM bind_done (fun _ _ ↦ rfl) bind_bind

end DiskM

/-! ## Asking -/

namespace Disk

def stat (p : Path) : ExceptT DiskError DiskM Stat :=
  .mk (.ask (.stat p) .done)

def realPath (p : Path) : ExceptT DiskError DiskM Path :=
  .mk (.ask (.realPath p) .done)

def read (p : Path) : ExceptT DiskError DiskM ByteArray :=
  .mk (.ask (.read p) .done)

def list (p : Path) : ExceptT DiskError DiskM (List String) :=
  .mk (.ask (.list p) .done)

def create (p : Path) : ExceptT DiskError DiskM Unit :=
  .mk (.ask (.create p) .done)

def write (p : Path) (data : ByteArray) : ExceptT DiskError DiskM Unit :=
  .mk (.ask (.write p data) .done)

def rename (p q : Path) : ExceptT DiskError DiskM Unit :=
  .mk (.ask (.rename p q) .done)

def makeDir (p : Path) : ExceptT DiskError DiskM Unit :=
  .mk (.ask (.makeDir p) .done)

def currentDir : ExceptT DiskError DiskM Path :=
  .mk (.ask .currentDir .done)

def extent : DiskM Nat :=
  .ask .extent .done

/-- The outcome of a computation that may fail, failure or not. -/
def attempt {m : Type → Type} [MonadLiftT DiskM m] {ε α : Type} (x : ExceptT ε DiskM α) :
    m (Except ε α) :=
  monadLift (n := m) x.run

/-- What is at a path, if anything is. -/
def type? (p : Path) : DiskM (Option EntryType) := do
  match ← attempt (stat p) with
  | .ok s => return some s.type
  | .error _ => return none

def exists? (p : Path) : DiskM Bool := do
  return (← type? p).isSome

def isFile (p : Path) : DiskM Bool := do
  return (← type? p) = some .file

def isDirectory (p : Path) : DiskM Bool := do
  return (← type? p) = some .directory

/-- The text of a file. -/
def readText (p : Path) : ExceptT DiskError DiskM String := do
  match String.fromUTF8? (← read p) with
  | some s => return s
  | none => throw .notText

/-! ## Writing

None of these steps can be taken back, so the order in them is what a reader of an unfinished
write can rely on. -/

/-- A path and the paths above it, the lowest first. -/
def pathsAbove : Nat → Path → List Path
  | 0, p => [p]
  | n + 1, p =>
    match p.parent? with
    | some parent => p :: pathsAbove n parent
    | none => [p]

/-- Makes the first of a list of directories, each in the next, and those of the others that it
needs. A directory that is already there is as good as one made. -/
def makeDirsFrom : List Path → ExceptT DiskError DiskM Unit
  | [] => throw .notFound
  | p :: above =>
    if p.parts.isEmpty then pure ()
    else do
      match ← attempt (makeDir p) with
      | .ok _ => pure ()
      | .error .notFound =>
        makeDirsFrom above
        match ← attempt (makeDir p) with
        | .ok _ => pure ()
        | .error e => unless ← isDirectory p do throw e
      | .error e => unless ← isDirectory p do throw e

/-- Makes a directory and all that it needs above it. -/
def makeDirs (p : Path) : ExceptT DiskError DiskM Unit :=
  makeDirsFrom (pathsAbove p.text.length p)

/-- The path with something added to its file name. -/
def sibling (p : Path) (ending : String) : Path :=
  p.withFileName (p.fileName?.getD "" ++ ending)

def draftOf (p : Path) : Path :=
  sibling p ".tmp"

def backupOf (p : Path) : Path :=
  sibling p ".bak"

/-- Replaces a file. The bytes go to a draft beside it, which takes the file's place when it is
complete; what was there before becomes the backup, if that can be done. -/
def replace (p : Path) (data : ByteArray) : ExceptT DiskError DiskM Unit := do
  create (draftOf p)
  write (draftOf p) data
  if ← exists? p then
    let _ ← attempt (rename p (backupOf p))
  rename (draftOf p) p

end Disk

end CharacterScript
