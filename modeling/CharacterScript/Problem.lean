import CharacterScript.Calc
import CharacterScript.SourceMap
import CharacterScript.Token.Lexer
import CharacterScript.Tree.Parser

/-!
# Problems with a script

Compiling stops at the first thing that is wrong. A `Problem` says what it was and where, and keeps
the parts of the message instead of its text; `Problem.message` is the one place that words them.
`Problem.diagnostic` is the form handed to tools, with a code to tell the kinds apart.

## Families

A text that cannot be read is a structural problem, and one that can be read but not compiled is a
semantic one. The family of a problem follows from its kind, and so does its code.

## Positions

A problem inside the expansion of a definition is shown where the definition is, with its name in
front of the message, because the text in question stands nowhere in the source. A layer without
`main` is the one problem that has no position: there is nothing to point at.
-/

namespace CharacterScript

/-- What a name is reserved as. -/
inductive ReservedKind where
  | command | global | var | script
  deriving DecidableEq

def ReservedKind.word : ReservedKind → String
  | command => "command"
  | global => "global"
  | var => "variable"
  | script => "script"

/-- What there can be too many of. -/
inductive Limit where
  | parameters | anonymousScopes | vars | numbers | strings | callables | scripts
  deriving DecidableEq

def Limit.word : Limit → String
  | parameters => "parameters"
  | anonymousScopes => "anonymous scopes"
  | vars => "variables"
  | numbers => "numbers in one scope"
  | strings => "strings in one scope"
  | callables => "callables"
  | scripts => "scripts"

inductive Problem where
  /-- The text cannot be cut into tokens; `within` names the definition whose expansion it is. -/
  | lex (pos : Position) (within : Option String) (cause : LexCause)
  /-- The tokens do not form a file, or the expansion of a definition no expression. -/
  | parse (pos : Position) (within : Option String) (expected : Expected) (found : Token)
  | calc_ (pos : Position) (text : String) (cause : CalcError)
  | recursion (pos : Position) (name : String)
  | duplicate (pos : Position) (name : String) (existing : Position)
  | lone (pos : Position) (name : String)
  | unknownCallee (pos : Position) (name : String)
  | argCount (pos : Position) (name : String) (given expected : Nat) (atLeast : Bool)
  | refArg (pos : Position) (name : String) (index : Nat)
  | reserved (pos : Position) (name : String) (kind : ReservedKind)
  | unknownName (pos : Position) (name : String)
  | missingMain
  | limit (pos : Position) (what : Limit)

/-- Whether the text of a script is unreadable, or readable and wrong. -/
inductive Family where
  | structural | semantic
  deriving DecidableEq

def Family.word : Family → String
  | structural => "Structural"
  | semantic => "Semantic"

namespace Problem

def code : Problem → String
  | lex .. => "LexError"
  | parse .. => "SyntaxError"
  | calc_ .. => "EvalError"
  | recursion .. => "MacroRecursionError"
  | duplicate .. => "DuplicateIdentifierError"
  | lone .. => "HangingIdentifierError"
  | unknownCallee .. => "CallDNEError"
  | argCount .. => "ArgCountMismatchError"
  | refArg .. => "RefArgMismatchError"
  | reserved .. => "ReservedNameError"
  | unknownName .. => "IdentDNEError"
  | missingMain => "MissingMainError"
  | limit .. => "LimitError"

def family : Problem → Family
  | lex .. | parse .. => .structural
  | _ => .semantic

def pos? : Problem → Option Position
  | lex pos .. | parse pos .. | calc_ pos .. | recursion pos .. | duplicate pos .. | lone pos ..
  | unknownCallee pos .. | argCount pos .. | refArg pos .. | reserved pos .. | unknownName pos ..
  | limit pos .. => some pos
  | missingMain => none

/-- The earlier declaration that a duplicate collides with. -/
def related? : Problem → Option Position
  | duplicate _ _ existing => some existing
  | _ => none

/-- Names the definition whose expansion a message is about. -/
private def inExpansion : Option String → String
  | some name => "in expansion of " ++ name ++ ": "
  | none => ""

/-- What is wrong, without the place. -/
def detail : Problem → String
  | lex _ within cause => inExpansion within ++ cause.message
  | parse _ within expected found =>
    inExpansion within ++ expected.message ++ ", found '" ++ found.describe ++ "'"
  | calc_ _ text cause => "cannot evaluate '" ++ text ++ "': " ++ cause.message
  | recursion _ name => "too many nested defines while expanding " ++ name
  | duplicate _ name existing => "identifier " ++ name ++ " already exists @ " ++ existing.render
  | lone _ name => "lone identifier " ++ name ++ " is not a statement"
  | unknownCallee _ name => "trying to call " ++ name ++ " but it does not exist"
  | argCount _ name given expected atLeast =>
    "giving " ++ toString given ++ " arguments but " ++ name ++ " takes " ++
      (if atLeast then "at least " else "") ++ toString expected
  | refArg _ name index =>
    "argument " ++ toString index ++ " of " ++ name ++
      " is a reference parameter and needs a variable"
  | reserved _ name kind => name ++ " is a reserved " ++ kind.word ++ " name"
  | unknownName _ name => name ++ " does not exist"
  | missingMain => "missing main script"
  | limit _ what => "too many " ++ what.word

def message (p : Problem) : String :=
  match p.pos? with
  | some pos => pos.render ++ ": " ++ p.detail
  | none => p.detail

end Problem

/-- A problem in the form tools read. -/
structure Diagnostic where
  /-- The name of the kind of problem, which does not change with its message. -/
  code : String
  /-- The stage of the compiler that found it. -/
  family : Family
  /-- The problem in words. -/
  message : String
  /-- Where it is, if it is in a source file. -/
  pos : Option Position
  /-- Another place it is about, such as an earlier declaration of the name. -/
  related : Option Position

def Problem.diagnostic (p : Problem) : Diagnostic :=
  ⟨p.code, p.family, p.message, p.pos?, p.related?⟩

end CharacterScript
