import CharacterScript.Path
import CharacterScript.Text.Class
import CharacterScript.Text.Span

/-!
# Where a stitched text comes from

The files of a script directory are compiled as one text. `stitch` puts a marker line in front of
each, and a `SourceMap` reads the markers back, so that an offset into the text becomes a line and a
column of the file it came from.

## The scan

The scan keeps four states, because a marker inside a comment or a text literal is not one. A path
directive puts the scan into the same state as a line comment: both run to the end of their line,
quotes and all. For each line the map keeps the offset of its start and the text from there on, so a
column is found by walking that line only.

## What a position says

A `Position` is what the user sees: a file, a line in it, and two columns. Files are compiled as
one text and tokens know their offset in that, so every message goes through the map. Markers take
up a line, hence the line of a file is the line of the stitched text less that of its marker.

A text without markers has no files, and its positions belong to a file without a name.
-/

namespace CharacterScript

/-! ## Positions -/

/-- A place in a source file, as it is shown to the user. Lines and columns count from one. -/
structure Position where
  /-- The path of the file, as the marker line gives it. -/
  file : String
  /-- The line in that file. -/
  line : Nat
  /-- The column of the first character. -/
  column : Nat
  /-- The column behind the last character. -/
  endColumn : Nat
  deriving DecidableEq, Inhabited

namespace Position

/-- The name shown for the file. -/
def shownFile (p : Position) : String :=
  (Path.mk p.file).fileName?.getD p.file

def render (p : Position) : String :=
  p.shownFile ++ ":" ++ toString p.line ++ ":" ++ toString p.column

end Position

/-! ## Files and lines -/

/-- A file of a stitched text. `startLine` is the line right before the file's first. -/
structure FileIdent where
  /-- The path of the file, as the marker line gives it. -/
  name : String
  /-- The line of the stitched text that holds the marker. -/
  startLine : Nat
  deriving DecidableEq

/-- The start of a line: its offset and the text from there on. -/
structure LineStart where
  /-- The bytes of the stitched text ahead of the line. -/
  offset : Nat
  /-- The text from the line on. -/
  rest : List Char

/-- A stitched text, cut in lines, with the files it was stitched from. -/
structure SourceMap where
  /-- The lines in order, the first at offset zero. -/
  lines : Array LineStart
  /-- The files in order. -/
  files : Array FileIdent

namespace SourceMap

/-- What begins a marker line. -/
def marker : List Char := "#__FILE__ ".toList

/-- The file name shown for text before any marker. -/
def unnamedFile : String := "<input>"

/-! ## The scan

The state is passed along as arguments, and a mark of two characters is passed over in two steps:
the second one only drops the flag that the first has set. -/

/-- What kind of text the scan is in. -/
inductive Region where
  | code | line | block | text
  deriving DecidableEq

/-- Whether the text is a path directive other than a marker. -/
def startsDirective (cs : List Char) : Bool :=
  "#out ".toList.isPrefixOf cs || "#extends ".toList.isPrefixOf cs

/-- The name on a marker line, if the text starts with one. -/
def markerName? (cs : List Char) : Option String :=
  if marker.isPrefixOf cs then
    some (String.ofList (trimEnd ((cs.drop marker.length).takeWhile (· != '\n'))))
  else none

/-- The region after the character `c`, with `next` coming up, and whether `next` belongs to the
same mark. -/
def Region.step (region : Region) (c : Char) (next : List Char) : Region × Bool :=
  match region with
  | .code =>
    if c = '/' ∧ next.head? = some '/' then (.line, false)
    else if c = '/' ∧ next.head? = some '*' then (.block, true)
    else if startsDirective (c :: next) then (.line, false)
    else if c = '"' then (.text, false)
    else (.code, false)
  | .line => (if c = '\n' then .code else .line, false)
  | .block => if c = '*' ∧ next.head? = some '/' then (.code, true) else (.block, false)
  | .text => (if c = '"' then .code else .text, false)

/-- Scans on from byte `offset`. `atStart` says that a line starts here, and `skip` that this
character belongs to the mark before it. -/
def scan (offset : Nat) (region : Region) (atStart skip : Bool) (map : SourceMap) :
    List Char → SourceMap
  | [] => map
  | c :: cs =>
    let next := offset + c.utf8Size
    if skip then scan next region false false map cs
    else
      match if atStart && region == .code then markerName? (c :: cs) else none with
      | some name =>
        scan next .line false false
          { map with files := map.files.push ⟨name, map.lines.size + 1⟩ } cs
      | none =>
        let (region, skip) := region.step c cs
        if c = '\n' then
          scan next region true skip { map with lines := map.lines.push ⟨next, cs⟩ } cs
        else scan next region false skip map cs

end SourceMap

def SourceMap.ofSource (source : String) : SourceMap :=
  let cs := source.toList
  SourceMap.scan 0 .code true false ⟨#[⟨0, cs⟩], #[]⟩ cs

namespace SourceMap

/-! ## Looking up

The lines are in order of their offsets, so the line of an offset is found by halving. Columns are
counted in characters where that is possible. -/

/-- The last index from `lo` up to, not including, `hi` whose line starts at or before `offset`, or
`lo` if there is none. The distance halves at each step, so its length in bits bounds the search. -/
def lineIndex (map : SourceMap) (offset : Nat) : Nat → Nat → Nat → Nat
  | 0, lo, _ => lo
  | fuel + 1, lo, hi =>
    if hi ≤ lo + 1 then lo
    else
      let mid := (lo + hi) / 2
      match map.lines[mid]? with
      | some start =>
        if start.offset ≤ offset then map.lineIndex offset fuel mid hi
        else map.lineIndex offset fuel lo mid
      | none => lo

/-- The index of the line an offset is in; what is past the end is in the last line. -/
def lineOf (map : SourceMap) (offset : Nat) : Nat :=
  map.lineIndex offset (Nat.log2 map.lines.size + 2) 0 map.lines.size

/-- What a column keeps of a count. A line number never outgrows the text, but an offset may lie any
distance past its end, and a column has 32 bits. -/
def wrap (count : Nat) : Nat :=
  count % 0x100000000

/-- Where a span lies in the stitched text. Columns count characters; off the boundary of a
character or past the end of the text they count bytes instead. A span is at least one column
wide. -/
structure Place where
  /-- The line of the stitched text, counted from one. -/
  line : Nat
  /-- The column of the first character, counted from one. -/
  column : Nat
  /-- How many columns the span is wide. -/
  width : Nat

def place (map : SourceMap) (span : Span) : Place :=
  let index := map.lineOf span.start
  let start := map.lines.getD index ⟨0, []⟩
  let bytes := span.stop - span.start
  match advance? (span.start - start.offset) 0 start.rest with
  | none => ⟨index + 1, wrap (span.start - start.offset + 1), max (wrap bytes) 1⟩
  | some (before, rest) =>
    let width := match advance? bytes 0 rest with
      | some (count, _) => count
      | none => bytes
    ⟨index + 1, wrap (before + 1), max (wrap width) 1⟩

/-- The stitched line and column of an offset. -/
def lineCol (map : SourceMap) (offset : Nat) : Nat × Nat :=
  let p := map.place ⟨offset, offset⟩
  (p.line, p.column)

/-- The file a stitched line belongs to: the last one whose marker is at or before it. -/
def fileForLine? (map : SourceMap) (line : Nat) : Option FileIdent :=
  map.files.toList.reverse.find? fun f ↦ f.startLine ≤ line + 1

/-- The position of a span in its own file. -/
def position (map : SourceMap) (span : Span) : Position :=
  let p := map.place span
  let endColumn := wrap (p.column + p.width)
  match map.fileForLine? p.line with
  | some file => ⟨file.name, p.line - file.startLine, p.column, endColumn⟩
  | none => ⟨unnamedFile, p.line, p.column, endColumn⟩

end SourceMap

/-- Puts files together into one text, each behind its marker line. -/
def stitch (files : List (String × String)) : String :=
  files.foldl (fun out (path, content) ↦
    out ++ "\n\n" ++ String.ofList SourceMap.marker ++ path ++ "\n\n" ++ content) ""

end CharacterScript
