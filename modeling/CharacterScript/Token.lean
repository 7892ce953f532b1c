import CharacterScript.Number.Shortest
import CharacterScript.Text.Class
import CharacterScript.Text.Span

/-!
# Tokens

The words of the script language: keywords, punctuation, literals, names and the directives that
start with `#`. A token knows how it is spelled in an error message, and a `Lexeme` is a token with
the place it was read from.

## Spellings

Keywords and punctuation have one spelling each, given by `Keyword.spelling` and `Punct.spelling`.
The reader of the language looks its words up in the same tables, so a token is always described
the way it was written; the one exception is `else if`, which may be written with more blanks.

## Operands

`Token.endsOperand` tells whether a token can be the last one of an operand. It is what the lexer
asks about the token before a minus sign, and the only thing it remembers of what it has read.
-/

namespace CharacterScript

/-! ## Keywords -/

inductive Keyword where
  | fn | let_ | global | return_ | script | collapse | if_ | elif | else_ | loop | break_
  deriving DecidableEq

namespace Keyword

def spelling : Keyword → String
  | fn => "fn"
  | let_ => "let"
  | global => "global"
  | return_ => "return"
  | script => "script"
  | collapse => "collapse"
  | if_ => "if"
  | elif => "else if"
  | else_ => "else"
  | loop => "loop"
  | break_ => "break"

/-- The keywords that are a single word. -/
def words : List Keyword :=
  [fn, let_, global, return_, script, collapse, if_, else_, loop, break_]

/-- The keyword spelled by a word, if it is one. -/
def ofWord? (word : String) : Option Keyword :=
  words.find? fun k ↦ k.spelling == word

end Keyword

/-! ## Punctuation and operators

`Punct.all` lists longer marks before those they start with, so that the first mark that fits is
the longest. -/

inductive Punct where
  | plusPlus | minusMinus | shiftLeft | shiftRight | greaterEq | lessEq | notEq | eqEq
  | andAnd | orOr
  | at_ | openBrace | closeBrace | openBracket | closeBracket | openParen | closeParen
  | comma | colon | semicolon
  | plus | minus | star | slash | percent | greater | less | bang | ampersand | caret | pipe | eq
  deriving DecidableEq

/-- The groups of operators that share a level of precedence. -/
inductive OperatorFamily where
  | additive | multiplicative | shift | relational | equality
  deriving DecidableEq

namespace Punct

def spelling : Punct → String
  | plusPlus => "++"
  | minusMinus => "--"
  | shiftLeft => "<<"
  | shiftRight => ">>"
  | greaterEq => ">="
  | lessEq => "<="
  | notEq => "!="
  | eqEq => "=="
  | andAnd => "&&"
  | orOr => "||"
  | at_ => "@"
  | openBrace => "\x7b"
  | closeBrace => "\x7d"
  | openBracket => "["
  | closeBracket => "]"
  | openParen => "("
  | closeParen => ")"
  | comma => ","
  | colon => ":"
  | semicolon => ";"
  | plus => "+"
  | minus => "-"
  | star => "*"
  | slash => "/"
  | percent => "%"
  | greater => ">"
  | less => "<"
  | bang => "!"
  | ampersand => "&"
  | caret => "^"
  | pipe => "|"
  | eq => "="

/-- Every mark, the two-character ones first: reading takes the first that fits, so the longest. -/
def all : List Punct :=
  [plusPlus, minusMinus, shiftLeft, shiftRight, greaterEq, lessEq, notEq, eqEq, andAnd, orOr,
    at_, openBrace, closeBrace, openBracket, closeBracket, openParen, closeParen, comma, colon,
    semicolon, plus, minus, star, slash, percent, greater, less, bang, ampersand, caret, pipe, eq]

/-- The longest mark a text starts with. -/
def read? (cs : List Char) : Option Punct :=
  all.find? fun p ↦ p.spelling.toList.isPrefixOf cs

def family? : Punct → Option OperatorFamily
  | plus | minus => some .additive
  | star | slash | percent => some .multiplicative
  | shiftLeft | shiftRight => some .shift
  | greaterEq | lessEq | greater | less => some .relational
  | notEq | eqEq => some .equality
  | _ => none

end Punct

/-! ## Directives that name a path -/

/-- The directives that take the rest of their line as a path. -/
inductive PathDirective where
  /-- Marks where the text of a file starts in a stitched text. -/
  | file
  /-- Names the directory a script directory builds on. -/
  | base
  /-- Names the file an image is written to. -/
  | output
  deriving DecidableEq

namespace PathDirective

def word : PathDirective → String
  | file => "__FILE__"
  | base => "extends"
  | output => "out"

def all : List PathDirective := [file, base, output]

def ofWord? (word : String) : Option PathDirective :=
  all.find? fun d ↦ d.word == word

end PathDirective

/-! ## Tokens -/

inductive Token where
  | keyword (k : Keyword)
  | punct (p : Punct)
  | directive (d : PathDirective) (path : String)
  | defineWord
  | calcWord
  | number (value : Float)
  | hex (value : UInt32)
  | text (value : String)
  | name (s : String)
  /-- A name written with a leading `&`. -/
  | reference (s : String)
  | eof
  deriving DecidableEq

namespace Token

/-- How a token is shown in an error message. -/
def describe : Token → String
  | keyword k => k.spelling
  | punct p => p.spelling
  | directive d path => "#" ++ d.word ++ " " ++ path
  | defineWord => "#define"
  | calcWord => "#calc"
  | number value => numberText value
  | hex value => "0x" ++ String.ofList (Nat.toDigits 16 value.toNat)
  | text value => "\"" ++ value ++ "\""
  | name s => s
  | reference s => "&" ++ s
  | eof => "end of input"

def family? : Token → Option OperatorFamily
  | punct p => p.family?
  | _ => none

/-- After these tokens a `-` subtracts; anywhere else, right before a digit, it is a sign. -/
def endsOperand : Token → Bool
  | number _ | hex _ | name _ | text _ | punct .closeParen | punct .closeBracket => true
  | _ => false

end Token

/-- A token and the place it was read from. -/
structure Lexeme where
  /-- What was read. -/
  token : Token
  /-- The bytes it was read from. -/
  span : Span

end CharacterScript
