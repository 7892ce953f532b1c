/-!
# Character classes and simple cuts of a text

The classes the rest of the library reads by, and the three ways a text is cut: trimmed, into
lines, and into words between white space. Everything works on lists of characters, because the
readers of this library walk a text from the front; the versions on `String` only convert.

## Blanks and spaces

Two notions of blank space are kept apart. `isBlank` is what separates tokens: five ASCII
characters and nothing else. `isSpace` is the Unicode property `White_Space`, which decides what
is trimmed off a path or a captured text and what separates the words of a vocabulary line.

## Lines

`lines` cuts at line feeds and drops a carriage return in front of one. There is no line behind a
line feed at the end of a text, so a text and the same text without its last line feed have the
same lines; an empty text has none.
-/

namespace CharacterScript

/-- The characters that separate tokens: space, tab, line feed, carriage return, form feed. -/
def isBlank (c : Char) : Bool :=
  c == ' ' || c == '\t' || c == '\n' || c == '\r' || c == '\x0c'

/-- A letter, a digit or an underscore, ASCII only. -/
def isWordChar (c : Char) : Bool :=
  c.isAlphanum || c == '_'

/-- A word starts with a letter or an underscore. -/
def isWordStart (c : Char) : Bool :=
  c.isAlpha || c == '_'

/-- The value of a hexadecimal digit of either case. -/
def hexValue? (c : Char) : Option Nat :=
  if c.isDigit then some (c.toNat - '0'.toNat)
  else if 'a' ≤ c ∧ c ≤ 'f' then some (c.toNat - 'a'.toNat + 10)
  else if 'A' ≤ c ∧ c ≤ 'F' then some (c.toNat - 'A'.toNat + 10)
  else none

def isHexDigit (c : Char) : Bool :=
  (hexValue? c).isSome

/-- The number a run of hexadecimal digits denotes; other characters count as zero. -/
def hexNumber (digits : List Char) : Nat :=
  digits.foldl (fun n c ↦ 16 * n + (hexValue? c).getD 0) 0

/-- The number a run of decimal digits denotes. -/
def decimalNumber (digits : List Char) : Nat :=
  digits.foldl (fun n c ↦ 10 * n + (c.toNat - '0'.toNat)) 0

/-! ## White space of any script -/

/-- The code points with the Unicode property `White_Space`, as closed ranges in order. -/
def spaceRanges : List (Nat × Nat) :=
  [(0x09, 0x0d), (0x20, 0x20), (0x85, 0x85), (0xa0, 0xa0), (0x1680, 0x1680), (0x2000, 0x200a),
    (0x2028, 0x2029), (0x202f, 0x202f), (0x205f, 0x205f), (0x3000, 0x3000)]

def isSpace (c : Char) : Bool :=
  spaceRanges.any fun (lo, hi) ↦ lo ≤ c.toNat && c.toNat ≤ hi

example : (spaceRanges.map fun (lo, hi) ↦ hi + 1 - lo).sum = 25 := by decide

/-- Every character that separates tokens is white space. -/
theorem isSpace_of_isBlank {c : Char} (h : isBlank c = true) : isSpace c = true := by
  simp only [isBlank, Bool.or_eq_true, beq_iff_eq] at h
  rcases h with (((rfl | rfl) | rfl) | rfl) | rfl <;> decide

/-! ## Trimming -/

def trimStart (cs : List Char) : List Char :=
  cs.dropWhile isSpace

def trimEnd (cs : List Char) : List Char :=
  (cs.reverse.dropWhile isSpace).reverse

def trim (cs : List Char) : List Char :=
  trimEnd (trimStart cs)

/-! ## Lines and words -/

/-- Drops one carriage return from a reversed line. -/
private def dropReturn : List Char → List Char
  | '\r' :: cs => cs
  | cs => cs

/-- Cuts at line feeds. `line` is the part of the current line already read, last character first;
a carriage return is dropped only where it stands right before a line feed. -/
def linesFrom (line : List Char) (done : List (List Char)) : List Char → List (List Char)
  | [] => if line.isEmpty then done.reverse else (line.reverse :: done).reverse
  | c :: cs =>
    if c = '\n' then linesFrom [] ((dropReturn line).reverse :: done) cs
    else linesFrom (c :: line) done cs

/-- The lines of a text. A line feed ends a line, so none is left over after the last one. -/
def lines (cs : List Char) : List (List Char) :=
  linesFrom [] [] cs

theorem linesFrom_nil (line : List Char) (done : List (List Char)) : linesFrom line done []
    = if line.isEmpty then done.reverse else (line.reverse :: done).reverse :=
  rfl

theorem linesFrom_cons (line : List Char) (done : List (List Char)) (c : Char) (cs : List Char) :
    linesFrom line done (c :: cs)
      = if c = '\n' then linesFrom [] ((dropReturn line).reverse :: done) cs
        else linesFrom (c :: line) done cs :=
  rfl

theorem linesFrom_append {line : List Char} (h : '\n' ∉ line) (rest front : List Char)
    (done : List (List Char)) :
    linesFrom front done (line ++ rest) = linesFrom (line.reverse ++ front) done rest := by
  induction line generalizing front with
  | nil => rfl
  | cons c line ih =>
    obtain ⟨hc, hline⟩ := List.ne_and_not_mem_of_not_mem_cons h
    rw [List.cons_append, linesFrom_cons, if_neg hc.symm, ih hline, List.reverse_cons,
      List.append_assoc]
    rfl

theorem linesFrom_done (rest line : List Char) (done : List (List Char)) :
    linesFrom line done rest = done.reverse ++ linesFrom line [] rest := by
  induction rest generalizing line done with
  | nil =>
    cases line with
    | nil => simp [linesFrom_nil]
    | cons c line => simp [linesFrom_nil]
  | cons c rest ih =>
    rw [linesFrom_cons, linesFrom_cons]
    split
    · rw [ih, ih _ [_], List.reverse_cons, List.append_assoc]
      rfl
    · exact ih _ _

/-- A text without line feeds is one line, if it is not empty. -/
theorem lines_of_not_mem {line : List Char} (h : '\n' ∉ line) :
    lines line = if line.isEmpty then [] else [line] := by
  have hline := linesFrom_append h [] [] []
  rw [List.append_nil, List.append_nil] at hline
  rw [lines, hline, linesFrom_nil, List.isEmpty_reverse, List.reverse_reverse]
  rfl

/-- The first line of a text ends at the first line feed. Of the line itself no more than a carriage
return is dropped. -/
theorem lines_append {line : List Char} (h : '\n' ∉ line) (rest : List Char) :
    ∃ body ending, line = body ++ ending ∧ (∀ c ∈ ending, c = '\r') ∧
      lines (line ++ '\n' :: rest) = body :: lines rest := by
  have hreturn : ∀ cs : List Char, ∃ ending, cs = ending ++ dropReturn cs ∧ ∀ c ∈ ending,
      c = '\r' := by
    intro cs
    unfold dropReturn
    split
    next cs => exact ⟨['\r'], rfl, by simp⟩
    · exact ⟨[], rfl, by simp⟩
  obtain ⟨ending, hsplit, hending⟩ := hreturn line.reverse
  refine ⟨(dropReturn line.reverse).reverse, ending.reverse, ?_, by simpa using hending, ?_⟩
  · rw [← List.reverse_append, ← hsplit, List.reverse_reverse]
  · rw [lines, linesFrom_append h, List.append_nil, linesFrom_cons, if_pos rfl, linesFrom_done]
    rfl

/-- Cuts at white space. `word` is the word being read, last character first. -/
def wordsFrom (word : List Char) (done : List (List Char)) : List Char → List (List Char)
  | [] => if word.isEmpty then done.reverse else (word.reverse :: done).reverse
  | c :: cs =>
    if isSpace c then
      if word.isEmpty then wordsFrom [] done cs else wordsFrom [] (word.reverse :: done) cs
    else wordsFrom (c :: word) done cs

/-- The maximal runs of characters that are not white space. -/
def words (cs : List Char) : List (List Char) :=
  wordsFrom [] [] cs

end CharacterScript
