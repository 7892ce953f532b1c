/-!
# Byte ranges of a text

A `Span` is a half-open range of byte offsets into the UTF-8 form of a text. Every token and every
node of the syntax tree carries one, so that an error can be shown at its place and the text of a
definition can be cut out exactly as it was written.

## Bytes and characters

Offsets count bytes and the readers of this library walk lists of characters. `byteLength` is how
far a list of characters reaches, so the offset of a place is the length of what stands in front
of it, and `advance?` goes the other way: it walks a number of bytes and fails where a character
would be cut.
-/

namespace CharacterScript

/-- The bytes from `start` up to, not including, `stop`. -/
structure Span where
  /-- The first byte. -/
  start : Nat
  /-- The byte behind the last. -/
  stop : Nat
  deriving DecidableEq, Inhabited

namespace Span

/-- The least span that covers both. -/
def merge (a b : Span) : Span :=
  ⟨min a.start b.start, max a.stop b.stop⟩

/-- The part of `text` that the span covers; empty when the span is. -/
def slice (text : String) (s : Span) : String :=
  String.Pos.Raw.extract text ⟨s.start⟩ ⟨s.stop⟩

end Span

/-- The number of bytes a list of characters takes. -/
def byteLength (cs : List Char) : Nat :=
  cs.foldl (fun n c ↦ n + c.utf8Size) 0

/-- Walks over whole characters taking `bytes` bytes, and gives how many there were (added to
`count`) and what comes after them. There is no answer if the walk would end inside a character or
after the end of the text. -/
def advance? (bytes : Nat) (count : Nat) : List Char → Option (Nat × List Char)
  | [] => if bytes = 0 then some (count, []) else none
  | c :: cs =>
    if bytes = 0 then some (count, c :: cs)
    else if c.utf8Size ≤ bytes then advance? (bytes - c.utf8Size) (count + 1) cs
    else none

end CharacterScript
