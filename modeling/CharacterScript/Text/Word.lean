import CharacterScript.Text.Class

/-!
# Whole words in a text

A definition is put into a text wherever its name stands as a word of its own. The text is searched
from the left, each occurrence is passed over as a whole, and an occurrence counts if no word
character stands right before or right after it. `Word.cut` gives the text in this view: the
characters that stay, with a mark in place of each occurrence that counts.

## Occurrences that do not count

The search goes on behind an occurrence, also behind one that does not count, and not behind its
first character. For a name that is a word of the language this makes no difference, since then no
occurrence can overlap one that counts.

The bytes beside an occurrence decide whether it stands alone, so a letter outside of ASCII ends a
word.
-/

namespace CharacterScript
namespace Word

/-- A character that stays, or an occurrence of the word. -/
inductive Part where
  | keep (c : Char)
  | hit
  deriving DecidableEq

/-- What happens to the next characters: they are passed over as part of an occurrence, which either
stays or is replaced. -/
inductive Pending where
  | keep (n : Nat)
  | drop (n : Nat)

/-- Whether the word at the front of the text stands alone, given the character before it. -/
def standsAlone (before : Option Char) (after : List Char) : Bool :=
  !before.any isWordChar && !after.head?.any isWordChar

/-- Cuts on, with the character before the text, what is pending, and the parts so far, last one
first. -/
def cutFrom (word : List Char) (before : Option Char) (pending : Pending) (done : List Part) :
    List Char → List Part
  | [] => done.reverse
  | c :: cs =>
    match pending with
    | .keep (n + 1) => cutFrom word (some c) (.keep n) (.keep c :: done) cs
    | .drop (n + 1) => cutFrom word (some c) (.drop n) done cs
    | .keep 0 | .drop 0 =>
      if word.isPrefixOf (c :: cs) then
        if standsAlone before ((c :: cs).drop word.length) then
          cutFrom word (some c) (.drop (word.length - 1)) (.hit :: done) cs
        else cutFrom word (some c) (.keep (word.length - 1)) (.keep c :: done) cs
      else cutFrom word (some c) (.keep 0) (.keep c :: done) cs

/-- The text with its occurrences of the word marked. The empty word occurs nowhere. -/
def cut (word text : List Char) : List Part :=
  if word.isEmpty then text.map .keep else cutFrom word none (.keep 0) [] text

/-- The characters a part stands for when occurrences read as `replacement`. -/
def Part.render (replacement : List Char) : Part → List Char
  | keep c => [c]
  | hit => replacement

end Word

/-- Whether `word` stands in `text` as a word of its own. -/
def containsWord (text word : String) : Bool :=
  (Word.cut word.toList text.toList).any (· == .hit)

/-- The text with every such occurrence replaced. -/
def replaceWord (text word replacement : String) : String :=
  let replacement := replacement.toList
  String.ofList ((Word.cut word.toList text.toList).flatMap (Word.Part.render replacement))

example : replaceWord "X + XX + X_ + (X)" "X" "1" = "1 + XX + X_ + (1)" := by decide +kernel

end CharacterScript
