/-!
# Paths

A path is a text with slashes in it, kept exactly as it was written: joining and taking the parent
cut and paste the text, so what is printed later still has the redundant slashes and dots that were
put in. Two paths are nevertheless the same if they agree in their parts, and `Path.parts` leaves
out what has no meaning: doubled slashes, a slash at the end, and dots other than a leading one.

## Cutting

A text is first cut into a head and the pieces of the rest. The head is `/` for an absolute path,
`.` for one that starts with a dot of its own, and empty otherwise.

## Why not take paths apart at once

Most of what is done to a path is to print it, to hand it to the disk, or to put a name behind it,
and for these the text is what counts: a disk may be asked about `a/../b` and `b` and answer
differently. The parts are there for the questions that are about places and not about texts, such
as whether two results belong to one directory.
-/

namespace CharacterScript

/-- A path as it was written. Two texts are two paths, even where they lead to one place. -/
structure Path where
  /-- The pieces and the slashes between them. -/
  text : String
  deriving DecidableEq, Inhabited

namespace Path

/-! ## Cutting -/

/-- Cuts at slashes. `piece` is what was read since the last one, last character first. -/
def piecesFrom (piece : List Char) (done : List (List Char)) : List Char → List (List Char)
  | [] => (piece.reverse :: done).reverse
  | c :: cs =>
    if c = '/' then piecesFrom [] (piece.reverse :: done) cs
    else piecesFrom (c :: piece) done cs

def pieces (cs : List Char) : List (List Char) :=
  piecesFrom [] [] cs

/-- The head of a path and the pieces of what follows it. -/
def cut (p : Path) : List Char × List (List Char) :=
  match p.text.toList with
  | '/' :: rest => (['/'], pieces rest)
  | ['.'] => (['.'], [])
  | '.' :: '/' :: rest => (['.'], pieces ('/' :: rest))
  | cs => ([], pieces cs)

/-- Whether a piece names something: not empty and not a dot. -/
def isNamed (piece : List Char) : Bool :=
  !piece.isEmpty && piece != ['.']

/-- The text with the given head and pieces. -/
def glue (head : List Char) (pieces : List (List Char)) : Path :=
  ⟨String.ofList (head ++ ['/'].intercalate pieces)⟩

/-! ## Parts

Going up is a part of its own and is not carried out, since what it leads to is known to the disk
only. -/

inductive Part where
  | root
  | here
  | up
  | named (name : String)
  deriving DecidableEq

def Part.ofPiece (piece : List Char) : Part :=
  if piece = ['.', '.'] then .up else .named (String.ofList piece)

/-- The meaningful parts of a path, in order. -/
def parts (p : Path) : List Part :=
  let (head, pieces) := p.cut
  let rest := (pieces.filter isNamed).map Part.ofPiece
  match head with
  | ['/'] => .root :: rest
  | ['.'] => .here :: rest
  | _ => rest

/-- Two paths that agree in their parts name the same thing. -/
def same (p q : Path) : Bool :=
  p.parts == q.parts

/-- The last part, if it is a name. -/
def fileName? (p : Path) : Option String :=
  match p.parts.getLast? with
  | some (.named name) => some name
  | _ => none

/-- The path without its last part. An absolute path with nothing in it has no parent, and neither
has the empty path. -/
def parent? (p : Path) : Option Path :=
  let (head, pieces) := p.cut
  match pieces.reverse.dropWhile (!isNamed ·) with
  | _ :: before => some (glue head (before.dropWhile (!isNamed ·)).reverse)
  | [] => if head = ['.'] then some ⟨""⟩ else none

/-- What follows the last dot of the file name. A dot at its very start does not count. -/
def extension? (p : Path) : Option String := do
  let name ← p.fileName?
  let back := name.toList.reverse
  let extension := back.takeWhile (· != '.')
  if extension.length + 1 < back.length then some (String.ofList extension.reverse) else none

/-! ## Building

None of these look at the disk or make a path shorter than it is. -/

def isAbsolute (p : Path) : Bool :=
  p.text.toList.head? == some '/'

/-- The path `q` seen from `p`: `q` itself if it is absolute, and otherwise the two with a slash
between them where one is needed. -/
def join (p : Path) (q : String) : Path :=
  if (Path.mk q).isAbsolute then ⟨q⟩
  else if p.text.isEmpty || p.text.toList.getLast? == some '/' then ⟨p.text ++ q⟩
  else ⟨p.text ++ "/" ++ q⟩

/-- The path with another file name. -/
def withFileName (p : Path) (name : String) : Path :=
  match p.fileName?, p.parent? with
  | some _, some parent => parent.join name
  | _, _ => p.join name

end Path

end CharacterScript
