import CharacterScript.Token

/-!
# Reading tokens

`lex` cuts a text into lexemes. At each place `Piece.read` decides what stands there: a gap, that is
a blank or a comment, which is dropped; or a token. Either way it says how many characters it takes,
and the walk goes on after them. The walk itself is structural recursion on the text with the number
of characters still to pass over, so it needs no bound and cannot run away.

## Two decisions

Two decisions look beyond the characters at hand. A `-` right before a digit belongs to the number
unless the token before it ends an operand, so `a -1` subtracts and `a, -1` does not. And `else`,
blanks and `if` on one line are one token, so that a chain of conditions needs no lookahead later.

## What a piece costs

A piece takes at least one character, and its token is made from those characters alone. The one
thing that crosses from piece to piece is the last token, so a text can be cut in two at any place
where a piece ends, and what is behind it is read as it would be elsewhere, up to the offsets.
-/

namespace CharacterScript

/-- Why a text cannot be cut into tokens. -/
inductive LexCause where
  | unterminatedComment
  | unterminatedText
  | hexLength
  | missingPath (d : PathDirective)
  | unknownDirective (word : String)
  | unexpected (c : Char)
  deriving DecidableEq

/-- The number of digits a hexadecimal literal may have. -/
def maxHexDigits : Nat := 8

def LexCause.message : LexCause → String
  | unterminatedComment => "unterminated block comment"
  | unterminatedText => "unterminated string literal"
  | hexLength => "hex literal must have 1 to " ++ toString maxHexDigits ++ " digits"
  | missingPath d => "#" ++ d.word ++ " expects a path"
  | unknownDirective word => "unknown directive '#" ++ word ++ "'"
  | unexpected c => "unexpected character '" ++ c.toString ++ "'"

/-- Why a text cannot be cut into tokens. -/
structure LexError where
  /-- The byte where the token in question starts. -/
  offset : Nat
  /-- What is wrong with it. -/
  cause : LexCause
  deriving DecidableEq

/-- What stands at one place of a text, with the number of characters it takes. -/
inductive Piece where
  | gap (width : Nat)
  | token (token : Token) (width : Nat)

namespace Piece

/-! ## The forms of a piece

Each form answers with the token and the number of characters it takes. Some are given the first
characters of the form already read, since these told that it is this form. -/

/-- The characters up to and including the next comment end, counted on from `n`. -/
def commentWidth? (n : Nat) : List Char → Option Nat
  | [] => none
  | '*' :: '/' :: _ => some (n + 2)
  | _ :: cs => commentWidth? (n + 1) cs

def upToNewline (cs : List Char) : List Char :=
  cs.takeWhile (· != '\n')

/-- A directive, read after its `#`. The path directives want exactly one blank and then a path,
which is the rest of the line without the white space at its end. -/
def directive (cs : List Char) : Except LexCause Piece :=
  let word := cs.takeWhile isWordChar
  let name := String.ofList word
  if name == "define" then .ok (.token .defineWord (word.length + 1))
  else if name == "calc" then .ok (.token .calcWord (word.length + 1))
  else
    match PathDirective.ofWord? name with
    | none => .error (.unknownDirective name)
    | some d =>
      match cs.drop word.length with
      | ' ' :: rest =>
        let line := upToNewline rest
        let path := trimEnd line
        if path.isEmpty then .error (.missingPath d)
        else .ok (.token (.directive d (String.ofList path)) (word.length + line.length + 2))
      | _ => .error (.missingPath d)

/-- A text literal, read after its opening quote. It may run over several lines. -/
def text (cs : List Char) : Except LexCause Piece :=
  let body := cs.takeWhile (· != '"')
  match cs.drop body.length with
  | [] => .error .unterminatedText
  | _ :: _ => .ok (.token (.text (String.ofList body)) (body.length + 2))

/-- A hexadecimal literal, read after its `0x`. -/
def hex (cs : List Char) : Except LexCause Piece :=
  let digits := cs.takeWhile isHexDigit
  if digits.length = 0 ∨ maxHexDigits < digits.length then .error .hexLength
  else .ok (.token (.hex (UInt32.ofNat (hexNumber digits))) (digits.length + 2))

/-- The digits of a decimal literal before and after its point. A point counts only when a digit
follows it. -/
def decimalParts (cs : List Char) : List Char × List Char :=
  let whole := cs.takeWhile Char.isDigit
  match cs.drop whole.length with
  | '.' :: rest => (whole, rest.takeWhile Char.isDigit)
  | _ => (whole, [])

/-- The number written `whole.fraction`, correctly rounded. -/
def decimalValue (whole fraction : List Char) : Float :=
  Float.ofScientific (decimalNumber (whole ++ fraction)) true fraction.length

/-- A decimal literal without its sign. -/
def decimal (cs : List Char) : Float × Nat :=
  let (whole, fraction) := decimalParts cs
  (decimalValue whole fraction,
    if fraction.isEmpty then whole.length else whole.length + 1 + fraction.length)

/-- How many characters continue an `else` to an `else if`: some blanks or tabs and then the word
`if`, all on one line. -/
def elifWidth? (cs : List Char) : Option Nat :=
  let blanks := cs.takeWhile fun c ↦ c == ' ' || c == '\t'
  if blanks.isEmpty then none
  else
    match cs.drop blanks.length with
    | 'i' :: 'f' :: rest => if rest.head?.any isWordChar then none else some (blanks.length + 2)
    | _ => none

/-- A keyword or a name. -/
def word (cs : List Char) : Piece :=
  let letters := cs.takeWhile isWordChar
  let name := String.ofList letters
  match Keyword.ofWord? name with
  | some .else_ =>
    match elifWidth? (cs.drop letters.length) with
    | some more => .token (.keyword .elif) (letters.length + more)
    | none => .token (.keyword .else_) letters.length
  | some k => .token (.keyword k) letters.length
  | none => .token (.name name) letters.length

/-- A mark of punctuation. -/
def punct (c : Char) (cs : List Char) : Except LexCause Piece :=
  match Punct.read? (c :: cs) with
  | some p => .ok (.token (.punct p) p.spelling.toList.length)
  | none => .error (.unexpected c)

/-! ## One piece

The forms start with different characters, but for the slash of a comment, the minus of a number
and the `&` of a reference. These are looked for before the marks they start with. -/

/-- Whether a `-` at this place, followed by `cs`, is the sign of a number. -/
def isSign (last : Option Token) (cs : List Char) : Bool :=
  cs.head?.any Char.isDigit && !last.any Token.endsOperand

/-- What stands at the front of the text `c :: cs`, after the token `last`. -/
def read (last : Option Token) (c : Char) (cs : List Char) : Except LexCause Piece :=
  if isBlank c then .ok (.gap 1)
  else if c = '/' ∧ cs.head? = some '/' then .ok (.gap (1 + (upToNewline cs).length))
  else if c = '/' ∧ cs.head? = some '*' then
    match commentWidth? 2 cs.tail with
    | some width => .ok (.gap width)
    | none => .error .unterminatedComment
  else if c = '#' then directive cs
  else if c = '"' then text cs
  else if c = '-' ∧ isSign last cs then
    let (value, width) := decimal cs
    .ok (.token (.number (-value)) (width + 1))
  else if c = '&' ∧ cs.head?.any isWordStart then
    let name := cs.takeWhile isWordChar
    .ok (.token (.reference (String.ofList name)) (name.length + 1))
  else if c = '0' ∧ cs.head?.any (fun x ↦ x == 'x' || x == 'X') then hex cs.tail
  else if c.isDigit then
    let (value, width) := decimal (c :: cs)
    .ok (.token (.number value) width)
  else if isWordStart c then .ok (word (c :: cs))
  else punct c cs

end Piece

/-! ## The whole text -/

/-- Reads on from byte `offset`. `skip` characters still belong to the piece before, and `done`
holds the lexemes read so far, last one first. -/
def lexFrom (offset skip : Nat) (done : List Lexeme) :
    List Char → Except LexError (List Lexeme)
  | [] => .ok (⟨.eof, ⟨offset, offset⟩⟩ :: done).reverse
  | c :: cs =>
    match skip with
    | skip + 1 => lexFrom (offset + c.utf8Size) skip done cs
    | 0 =>
      match Piece.read (done.head?.map (·.token)) c cs with
      | .error cause => .error ⟨offset, cause⟩
      | .ok (.gap width) => lexFrom (offset + c.utf8Size) (width - 1) done cs
      | .ok (.token t width) =>
        let stop := offset + byteLength ((c :: cs).take width)
        lexFrom (offset + c.utf8Size) (width - 1) (⟨t, ⟨offset, stop⟩⟩ :: done) cs

/-- The lexemes of a text, in order, with an end-of-input token behind them. -/
def lex (source : String) : Except LexError (List Lexeme) :=
  lexFrom 0 0 [] source.toList

end CharacterScript
