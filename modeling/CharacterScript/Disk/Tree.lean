import CharacterScript.Disk

/-!
# A disk in memory

A `FileTree` holds files and directories by place, which is the list of names from the root down,
and answers every `Query`. There are no links, so a place is all there is to know about what a path
leads to, and every path that leads somewhere has one place.

## Walking

Paths are walked a piece at a time. Each further piece, even an empty one or a dot, asks for a
directory to stand in; that is why a slash after the name of a file is refused.

## Lengths

A name has at most 255 bytes and a path at most 4095. Both limits are checked where the real disk
checks them: a path before anything else, a name when its directory is known to be one. That a
path is too long says nothing about the place it leads to, so `realPath` has no limit, and the
path it answers with may be one that no other question takes.

## Time

A change notes the time of a clock that goes on by one with each of them. A real disk may give two
changes the same time; whatever depends on that has to say so.
-/

namespace CharacterScript

/-- The names from the root down. -/
abbrev Spot := List String

inductive Node where
  | file (data : ByteArray) (modified : Int)
  | directory (modified : Int)

structure FileTree where
  /-- All there is below the root. -/
  entries : List (Spot × Node) := []
  /-- Where relative paths start. -/
  here : Spot := []
  /-- The time of the next change. -/
  clock : Int := 0

namespace FileTree

/-! ## Places -/

def node? (t : FileTree) (spot : Spot) : Option Node :=
  if spot.isEmpty then some (.directory 0) else t.entries.lookup spot

def isDirectoryAt (t : FileTree) (spot : Spot) : Bool :=
  match t.node? spot with
  | some (.directory _) => true
  | _ => false

/-- The names directly below a place. -/
def children (t : FileTree) (spot : Spot) : List String :=
  t.entries.filterMap fun (s, _) ↦
    if s.dropLast = spot then s.getLast? else none

/-- The tree with something else at a place. -/
def set (t : FileTree) (spot : Spot) (node : Node) : FileTree :=
  { t with entries := (spot, node) :: t.entries.filter (·.1 != spot) }

/-- The tree without what is at a place or below it. -/
def erase (t : FileTree) (spot : Spot) : FileTree :=
  { t with entries := t.entries.filter fun (s, _) ↦ !spot.isPrefixOf s }

/-- The tree with what is at a place or below it moved to another place. -/
def move (t : FileTree) (source target : Spot) : FileTree :=
  let others := t.entries.filter (·.1 != target)
  { t with entries := others.map fun (s, node) ↦
      if source.isPrefixOf s then (target ++ s.drop source.length, node) else (s, node) }

/-- Puts bytes at a place, now. -/
def put (t : FileTree) (spot : Spot) (data : ByteArray) : FileTree :=
  { t.set spot (.file data t.clock) with clock := t.clock + 1 }

/-- Makes a directory at a place, now. -/
def putDir (t : FileTree) (spot : Spot) : FileTree :=
  { t.set spot (.directory t.clock) with clock := t.clock + 1 }

/-- Makes the directories down to a place. -/
def makeDirsTo (t : FileTree) (spot : Spot) : FileTree :=
  (List.range spot.length).foldl (fun t n ↦
    let above := spot.take (n + 1)
    if (t.node? above).isSome then t else t.putDir above) t

/-- All files, with the place of each. -/
def files (t : FileTree) : List (Spot × ByteArray) :=
  t.entries.filterMap fun (s, node) ↦
    match node with
    | .file data _ => some (s, data)
    | .directory _ => none

/-! ## Paths -/

/-- The longest name, in bytes. -/
def maxName : Nat := 255

/-- The longest path, in bytes. -/
def maxPath : Nat := 4095

/-- The pieces of a path, of whatever length. -/
def allPieces (p : Path) : Except DiskError (List String) :=
  if p.text.isEmpty then .error .notFound
  else if p.text.toList.contains '\x00' then .error .nullInName
  else .ok ((Path.pieces p.text.toList).map String.ofList)

/-- The pieces of a path that is not too long. -/
def pieces (p : Path) : Except DiskError (List String) := do
  let all ← allPieces p
  if maxPath < p.text.utf8ByteSize then throw .nameTooLong
  return all

/-- The place that pieces lead to from a place. Everything on the way has to be there. -/
def walk (t : FileTree) (spot : Spot) : List String → Except DiskError Spot
  | [] => .ok spot
  | piece :: rest =>
    if !t.isDirectoryAt spot then .error .notDirectory
    else if piece = "" || piece = "." then t.walk spot rest
    else if piece = ".." then t.walk spot.dropLast rest
    else if maxName < piece.utf8ByteSize then .error .nameTooLong
    else if (t.node? (spot ++ [piece])).isSome then t.walk (spot ++ [piece]) rest
    else .error .notFound

def startOf (t : FileTree) (p : Path) : Spot :=
  if p.isAbsolute then [] else t.here

/-- The place a path leads to. -/
def find (t : FileTree) (p : Path) : Except DiskError Spot := do
  t.walk (t.startOf p) (← pieces p)

/-- The last step of a path: the directory it is taken in and the piece it takes. -/
structure LastStep where
  /-- The directory the step is taken in. -/
  dir : Spot
  /-- The name, or the dots, between the last two slashes. -/
  piece : String
  /-- Whether a slash follows. -/
  slash : Bool

/-- Whether the last step goes to a name, and not nowhere or up. -/
def LastStep.isName (s : LastStep) : Bool :=
  s.piece != "" && s.piece != "." && s.piece != ".."

def LastStep.spot (s : LastStep) : Spot :=
  s.dir ++ [s.piece]

/-- Walks a path up to its last step, whose own place may be empty. -/
def lastStep (t : FileTree) (p : Path) : Except DiskError LastStep := do
  let all ← pieces p
  let steps := (all.reverse.dropWhile (· = "")).reverse
  let dir ← t.walk (t.startOf p) steps.dropLast
  let piece := steps.getLast?.getD ""
  if !t.isDirectoryAt dir then throw .notDirectory
  if maxName < piece.utf8ByteSize then throw .nameTooLong
  return ⟨dir, piece, steps.length < all.length⟩

/-! ## Answers

Each question is answered by one function, which either gives the new tree or the error.
`FileTree.changed` is what makes a refused change leave everything as it was. -/

def pathOf (spot : Spot) : Path :=
  ⟨"/" ++ "/".intercalate spot⟩

/-- The path of the place that a path leads to. The steps are taken one by one, so the length of the
path as it is written does not matter. -/
def realPath (t : FileTree) (p : Path) : Except DiskError Path := do
  return pathOf (← t.walk (t.startOf p) (← allPieces p))

def stat (t : FileTree) (p : Path) : Except DiskError Stat := do
  match t.node? (← t.find p) with
  | some (.file _ modified) => return ⟨.file, modified⟩
  | some (.directory modified) => return ⟨.directory, modified⟩
  | none => throw .notFound

def read (t : FileTree) (p : Path) : Except DiskError ByteArray := do
  match t.node? (← t.find p) with
  | some (.file data _) => return data
  | some (.directory _) => throw .isDirectory
  | none => throw .notFound

def list (t : FileTree) (p : Path) : Except DiskError (List String) := do
  let spot ← t.find p
  if t.isDirectoryAt spot then return t.children spot else throw .notDirectory

def create (t : FileTree) (p : Path) : Except DiskError FileTree := do
  let step ← t.lastStep p
  if step.slash || !step.isName || t.isDirectoryAt step.spot then throw .isDirectory
  return t.put step.spot .empty

def write (t : FileTree) (p : Path) (data : ByteArray) : Except DiskError FileTree := do
  let spot ← t.find p
  match t.node? spot with
  | some (.file _ _) => return t.put spot data
  | some (.directory _) => throw .isDirectory
  | none => throw .notFound

def makeDir (t : FileTree) (p : Path) : Except DiskError FileTree := do
  let step ← t.lastStep p
  if !step.isName || (t.node? step.spot).isSome then throw .alreadyExists
  return t.putDir step.spot

/-- Moves what the first path leads to. A file replaces a file, and a directory an empty directory;
nothing can be moved below itself or over what it is in. -/
def rename (t : FileTree) (p q : Path) : Except DiskError FileTree := do
  let old ← t.lastStep p
  let new ← t.lastStep q
  if !old.isName || !new.isName then throw .busy
  let source := old.spot
  let target := new.spot
  match t.node? source with
  | none => throw .notFound
  | some node =>
    let isDir := t.isDirectoryAt source
    if !isDir && (old.slash || new.slash) then throw .notDirectory
    if source = target then return t
    if source.isPrefixOf target then throw .invalid
    if target.isPrefixOf source then throw .notEmpty
    match node, t.node? target with
    | .file .., some (.directory _) => throw .isDirectory
    | .directory _, some (.file ..) => throw .notDirectory
    | .directory _, some (.directory _) =>
      if (t.children target).isEmpty then return t.move source target else throw .notEmpty
    | _, _ => return t.move source target

/-- The answer to a change, and the tree after it. -/
def changed (t : FileTree) : Except DiskError FileTree → Except DiskError Unit × FileTree
  | .ok t' => (.ok (), t')
  | .error e => (.error e, t)

/-- Answers a question. Only a change that is carried out changes the tree. -/
def answer (t : FileTree) : (q : Query) → q.Answer × FileTree
  | .stat p => (t.stat p, t)
  | .realPath p => (t.realPath p, t)
  | .read p => (t.read p, t)
  | .list p => (t.list p, t)
  | .create p => t.changed (t.create p)
  | .write p data => t.changed (t.write p data)
  | .rename p q => t.changed (t.rename p q)
  | .makeDir p => t.changed (t.makeDir p)
  | .currentDir => (.ok (pathOf t.here), t)
  | .extent => (t.entries.length + 1, t)

/-- A tree with one file and one directory. -/
private def small : FileTree :=
  { entries := [(["f"], .file .empty 0), (["d"], .directory 0)] }

example : (small.find ⟨"/d/../f"⟩).toOption = some ["f"] := by decide +kernel
example : small.find ⟨"/f/.."⟩ = .error .notDirectory := rfl
example : small.find ⟨"/f/"⟩ = .error .notDirectory := rfl

end FileTree

/-- Runs a computation on a tree. -/
def DiskM.run {α : Type} : DiskM α → FileTree → α × FileTree
  | .done a, t => (a, t)
  | .ask q next, t => (next (t.answer q).1).run (t.answer q).2

namespace DiskM

variable {α β : Type}

@[simp] theorem run_done (a : α) (t : FileTree) : (done a).run t = (a, t) := rfl

@[simp] theorem run_ask (q : Query) (next : q.Answer → DiskM α) (t : FileTree) :
    (ask q next).run t = (next (t.answer q).1).run (t.answer q).2 := rfl

@[simp] theorem run_bind (x : DiskM α) (f : α → DiskM β) (t : FileTree) :
    (x >>= f).run t = (f (x.run t).1).run (x.run t).2 := by
  induction x generalizing t with
  | done a => rfl
  | ask q next ih => simp [ih]

end DiskM

end CharacterScript
