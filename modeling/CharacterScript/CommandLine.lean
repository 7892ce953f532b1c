import CharacterScript.Path

/-!
# The command line

The arguments of the program come in two levels: flags before the word that says what to do, and
flags and words after it. Most flags are understood on both levels, each at most once on a level,
and the later level wins.

## When the reading ends

A flag such as `--help` ends the reading as soon as it is looked at, whatever follows, and an
argument that makes no sense ends it as well. Which of the two is met first decides what is
printed, so the order in which flags are looked at can be seen from outside.

It is not quite the order of the arguments. A flag whose value is an argument of its own waits in
`Given.pending` until the next flag comes or the level ends, and the flags in front of the verb
wait until everything behind it has been read.

## The steps are bounded

`readFlags` and `readAll` take one argument or two at a step. The bound on their steps is the
number of arguments, so it is never what ends them.
-/

namespace CharacterScript
namespace CommandLine

/-! ## Flags -/

inductive Flag where
  | settings | vocabulary | characterDir | within | json | verbose | version | help
  deriving DecidableEq

namespace Flag

def long : Flag → String
  | settings => "settings"
  | vocabulary => "builtins"
  | characterDir => "character-dir"
  | within => "in"
  | json => "json"
  | verbose => "verbose"
  | version => "version"
  | help => "help"

def short? : Flag → Option Char
  | verbose => some 'v'
  | version => some 'V'
  | help => some 'h'
  | _ => none

def takesValue : Flag → Bool
  | settings | vocabulary | characterDir | within => true
  | _ => false

/-- Whether a text can be the value of a flag. A path cannot be empty. -/
def admits (f : Flag) (value : String) : Bool :=
  f == .within || value != ""

end Flag

/-- The flags that both levels understand. -/
def commonFlags : List Flag :=
  [.settings, .vocabulary, .characterDir, .json, .verbose, .help]

/-! ## Verbs -/

inductive Verb where
  | build | check | symbols | definition | vocabulary | init
  deriving DecidableEq

namespace Verb

def word : Verb → String
  | build => "build"
  | check => "check"
  | symbols => "symbols"
  | definition => "definition"
  | vocabulary => "builtins"
  | init => "init"

def all : List Verb :=
  [build, check, symbols, definition, vocabulary, init]

def ofWord? (w : String) : Option Verb :=
  all.find? (·.word == w)

def flags : Verb → List Flag
  | symbols => .within :: commonFlags
  | _ => commonFlags

/-- How many words the verb takes. The first is always a directory. -/
def arity : Verb → Nat
  | build | check | symbols => 1
  | definition => 2
  | vocabulary | init => 0

end Verb

/-- What is asked of the program. -/
inductive Request where
  | build (dir : Path)
  | check (dir : Path)
  | symbols (dir : Path) (within : Option String)
  | definition (dir : Path) (name : String)
  | vocabulary
  | init

/-- What may be set ahead of a command, for all of them. -/
structure Options where
  /-- The settings file to use in place of the one of the user. -/
  settings : Option Path := none
  /-- The vocabulary file to use in place of the one the settings name. -/
  vocabulary : Option Path := none
  /-- Where output paths start, in place of what the settings say. -/
  characterDir : Option Path := none
  /-- Whether problems and listings are shown as JSON. -/
  json : Bool := false

/-- Why there is nothing to do. -/
inductive Stop where
  | usage | version | help
  deriving DecidableEq

/-! ## One level

Short flags may be joined, as in `-vh`. A long flag has its value behind a `=` or in the next
argument, which must then not look like a flag itself. -/

/-- What the arguments of a level gave: flags with their values, and words. Both are last one
first. -/
structure Given where
  /-- The flags so far, each with its value. -/
  flags : List (Flag × String) := []
  /-- The arguments that are no flags. -/
  words : List String := []
  /-- A flag whose value was an argument of its own. It is looked at when the next flag comes or the
  level ends. -/
  pending : Option (Flag × String) := none

namespace Given

def value? (g : Given) (f : Flag) : Option String :=
  g.flags.lookup f

def has (g : Given) (f : Flag) : Bool :=
  (g.value? f).isSome

/-- Adds a flag. Those that ask for a text and nothing else end the reading. -/
def add (g : Given) (f : Flag) (value : String) : Except Stop Given :=
  if f = .version then .error .version
  else if f = .help then .error .help
  else if g.has f || (f.takesValue && !f.admits value) then .error .usage
  else .ok { g with flags := (f, value) :: g.flags }

/-- Adds the flag that is still to be looked at. -/
def settle (g : Given) : Except Stop Given :=
  match g.pending with
  | some (f, value) => { g with pending := none }.add f value
  | none => .ok g

/-- Takes a flag. -/
def take (g : Given) (f : Flag) (value : String) : Except Stop Given := do
  (← g.settle).add f value

/-- Takes a flag whose value is an argument of its own. -/
def defer (g : Given) (f : Flag) (value : String) : Except Stop Given := do
  return { ← g.settle with pending := some (f, value) }

/-- Takes a word, if the verb has a place left for it. A directory cannot be empty. -/
def takeWord (g : Given) (verb : Verb) (word : String) : Except Stop Given :=
  if verb.arity ≤ g.words.length || (g.words.isEmpty && word = "") then .error .usage
  else .ok { g with words := word :: g.words }

/-- Takes flags given by one letter each. -/
def takeShort (known : List Flag) : Given → List Char → Except Stop Given
  | g, [] => .ok g
  | g, c :: cs =>
    match known.find? (·.short? == some c) with
    | some f => do (← g.take f "").takeShort known cs
    | none => .error .usage

end Given

/-- Whether an argument is a flag by its look. -/
def looksLikeFlag (arg : List Char) : Bool :=
  arg.head? == some '-' && arg != ['-']

/-- A long flag and the value that is attached to it. -/
def splitLong (body : List Char) : String × Option String :=
  let name := body.takeWhile (· != '=')
  if name.length < body.length then
    (String.ofList name, some (String.ofList (body.drop (name.length + 1))))
  else (String.ofList name, none)

/-- A flag by its long name, with the value attached to it or following it. -/
def Given.takeLong (g : Given) (known : List Flag) (body : List Char) (rest : List String) :
    Except Stop (Given × List String) :=
  let (name, attached) := splitLong body
  match known.find? (·.long == name) with
  | none => .error .usage
  | some f =>
    if f.takesValue then
      match attached, rest with
      | some value, _ => do return (← g.take f value, rest)
      | none, value :: rest =>
        if looksLikeFlag value.toList then .error .usage
        else do return (← g.defer f value, rest)
      | none, [] => .error .usage
    else if attached.isSome then .error .usage
    else do return (← g.take f "", rest)

/-- Reads the flags in front of the verb. The answer ends with the arguments from the verb on. -/
def readFlags (known : List Flag) : Nat → Given → List String → Except Stop (Given × List String)
  | 0, _, _ => .error .usage
  | _, _, [] => .error .usage
  | n + 1, g, arg :: rest =>
    match arg.toList with
    | ['-', '-'] => .error .usage
    | '-' :: '-' :: body => do
      let (g, rest) ← g.takeLong known body rest
      readFlags known n g rest
    | '-' :: c :: cs => do readFlags known n (← g.takeShort known (c :: cs)) rest
    | _ => .ok (g, arg :: rest)

/-- Reads what follows a verb, flags and words, to the end. After two dashes everything is a
word. -/
def readAll (verb : Verb) : Nat → Given → List String → Except Stop Given
  | _, g, [] => g.settle
  | 0, _, _ => .error .usage
  | n + 1, g, arg :: rest =>
    match arg.toList with
    | ['-', '-'] => do (← rest.foldlM (·.takeWord verb) g).settle
    | '-' :: '-' :: body => do
      let (g, rest) ← g.takeLong verb.flags body rest
      readAll verb n g rest
    | '-' :: c :: cs => do readAll verb n (← g.takeShort verb.flags (c :: cs)) rest
    | _ => do readAll verb n (← g.takeWord verb arg) rest

/-! ## Both levels -/

/-- The request a verb makes of its words. -/
def Verb.request? (verb : Verb) (given : Given) : Option Request :=
  match verb, given.words.reverse with
  | .build, [dir] => some (.build ⟨dir⟩)
  | .check, [dir] => some (.check ⟨dir⟩)
  | .symbols, [dir] => some (.symbols ⟨dir⟩ (given.value? .within))
  | .definition, [dir, name] => some (.definition ⟨dir⟩ name)
  | .vocabulary, [] => some .vocabulary
  | .init, [] => some .init
  | _, _ => none

def Options.ofGiven (before after : Given) : Options where
  settings := (after.value? .settings <|> before.value? .settings).map Path.mk
  vocabulary := (after.value? .vocabulary <|> before.value? .vocabulary).map Path.mk
  characterDir := (after.value? .characterDir <|> before.value? .characterDir).map Path.mk
  json := after.has .json || before.has .json

/-- What the word `help` asks for, by the arguments after it: help in general, or on one word that
could stand in its place. -/
def helpOn : List String → Stop
  | [] => .help
  | [topic] => if topic = Flag.help.long || (Verb.ofWord? topic).isSome then .help else .usage
  | _ => .usage

/-- Reads the arguments of the program. A flag still to be looked at in front of the verb waits
until all that follows the verb has been read. -/
def parse (args : List String) : Except Stop (Options × Request) := do
  let (before, rest) ← readFlags (.version :: commonFlags) (args.length + 1) {} args
  match rest with
  | [] => .error .usage
  | word :: rest =>
    match Verb.ofWord? word with
    | none => .error (if word = Flag.help.long then helpOn rest else .usage)
    | some verb =>
      let after ← readAll verb (rest.length + 1) {} rest
      let before ← before.settle
      match verb.request? after with
      | some request => return (.ofGiven before after, request)
      | none => .error .usage

end CommandLine

end CharacterScript
