import CharacterScript.Image
import CharacterScript.Problem
import CharacterScript.Project.Error

/-!
# Failures

All that can keep a request from being answered. Each failure is of one of six kinds, whose codes
tools go by.

## Kinds and details

A message has the kind of the failure in front and what is missing or wrong behind it. The kinds
are few and stay what they are, while more details may come. A disk that refuses a file of scripts
and a disk that refuses the vocabulary are two kinds, because they are mended in different places.

A failure in a source file has a position, and one about a name that was declared twice has a
second one.
-/

namespace CharacterScript

inductive FailureKind where
  | notFound | disk | validation | vocabulary | compile | image
  deriving DecidableEq

def FailureKind.code : FailureKind → String
  | notFound => "NotFound"
  | disk => "IoError"
  | validation => "ValidationError"
  | vocabulary => "BuiltinsError"
  | compile => "CompileError"
  | image => "EncodeError"

inductive Failure where
  /-- There is no script or function of this name with a body. -/
  | noCallable (name : String)
  | noDefinition (name : String)
  | project (e : ProjectError)
  /-- There is no telling whether the vocabulary file has changed. -/
  | vocabularyFile (file : Path) (e : DiskError)
  | vocabulary (fault : Vocabulary.Fault)
  | problem (p : Problem)
  | image (e : ImageError)

namespace Failure

def kind : Failure → FailureKind
  | noCallable _ | noDefinition _ => .notFound
  | project (.disk _) => .disk
  | project _ => .validation
  | vocabularyFile .. | vocabulary _ => .vocabulary
  | problem _ => .compile
  | image _ => .image

/-- What is missing or wrong. -/
def detail : Failure → String
  | noCallable name => "script or function '" ++ name ++ "'"
  | noDefinition name => "definition of '" ++ name ++ "'"
  | project e => e.detail
  | vocabularyFile file e => file.text ++ ": " ++ e.message
  | vocabulary fault => fault.message
  | problem p => p.message
  | image e => e.message

def message (f : Failure) : String :=
  match f with
  | problem p => p.code ++ ": " ++ f.detail
  | _ =>
    match f.kind with
    | .notFound => f.detail ++ " not found"
    | .disk => "I/O error: " ++ f.detail
    | .vocabulary => "Builtins table: " ++ f.detail
    | .image => "Encode error: " ++ f.detail
    | .validation | .compile => f.detail

/-- The earlier declaration that a duplicate collides with. -/
def related? : Failure → Option Position
  | problem p => p.related?
  | _ => none

end Failure

end CharacterScript
