import CharacterScript.Proofs.Positions.Lines

/-!
# Positions in a stitched text

Every file of a stitched text stands behind a marker line of its own. The scan comes to each of
these lines outside of everything, provided no file leaves a text literal or a block comment open,
and it leaves them the same way. So the files that it finds are the files that were stitched
together, and in between it does what it would do on each file alone (`Scanner.marks_chunks`).

## Which lines belong to a file

A file owns the lines from its marker on up to the next one, which is more than the lines of its
content, so every position in the content is counted from the right marker (`position_stitch`).

## Conditions on a file

A file that has a marker of its own would own some of its lines itself, and a file that leaves a
literal open would hide the next marker. Either can be seen from the file alone, and these are the
only conditions on contents. A path has to be one that a line can hold, or the marker would name
another.
-/

namespace CharacterScript

namespace SourceMap

/-- The region in which the scan of a text ends. -/
def lastRegion (source : String) : Region :=
  (Scanner.start.run [] source.toList).region

end SourceMap

/-- A path and a text that can be stitched to others. -/
structure Stitchable (file : String × String) : Prop where
  /-- The path fits on a line. -/
  path_line : '\n' ∉ file.1.toList
  /-- It is not changed when blanks behind it are taken away. -/
  path_end : file.1.toList.getLast?.any isSpace = false
  /-- The text has no markers of its own. -/
  unmarked : (SourceMap.ofSource file.2).files = #[]
  /-- No literal and no comment reaches past its end. -/
  ends : SourceMap.lastRegion file.2 ≠ .text ∧ SourceMap.lastRegion file.2 ≠ .block

instance (file : String × String) : Decidable (Stitchable file) :=
  decidable_of_iff
    ('\n' ∉ file.1.toList ∧ file.1.toList.getLast?.any isSpace = false ∧
      (SourceMap.ofSource file.2).files = #[] ∧
      SourceMap.lastRegion file.2 ≠ .text ∧ SourceMap.lastRegion file.2 ≠ .block)
    ⟨fun ⟨line, last, unmarked, ends⟩ ↦ ⟨line, last, unmarked, ends⟩,
      fun h ↦ ⟨h.path_line, h.path_end, h.unmarked, h.ends⟩⟩

namespace SourceMap

/-! ## The text -/

/-- What stands in front of a file: a marker line between empty ones. -/
def header (path : String) : List Char :=
  ['\n', '\n'] ++ (marker ++ path.toList ++ ['\n', '\n'])

/-- A file as it stands in a stitched text. -/
def chunk (file : String × String) : List Char :=
  header file.1 ++ file.2.toList

theorem toList_stitch (files : List (String × String)) :
    (stitch files).toList = files.flatMap chunk := by
  have hfold : ∀ out : String, (files.foldl (fun out file ↦
      out ++ "\n\n" ++ String.ofList marker ++ file.1 ++ "\n\n" ++ file.2) out).toList
        = out.toList ++ files.flatMap chunk := by
    induction files with
    | nil => simp
    | cons file files ih =>
      intro out
      rw [List.foldl_cons, ih, List.flatMap_cons, chunk, header]
      simp
  exact hfold ""

theorem lineEnd_chunks (files : List (String × String)) :
    NoneNext (· != '\n') (files.flatMap chunk) := by
  cases files with
  | nil => exact noneNext_nil _
  | cons file files =>
    rw [List.flatMap_cons, chunk, header]
    exact noneNext_cons.2 rfl

theorem count_header {path : String} (h : '\n' ∉ path.toList) : (header path).count '\n' = 4 := by
  rw [header, List.count_append, List.count_append, List.count_append,
    List.count_eq_zero_of_not_mem h]
  decide

theorem getLast?_header (path : String) : (header path).getLast? = some '\n' := by
  have hheader : header path = ['\n', '\n'] ++ (marker ++ path.toList ++ ['\n']) ++ ['\n'] := by
    simp [header]
  rw [hheader, List.getLast?_concat]

/-! ## The scan of a header

A header is two line feeds, the marker with the path, and two more line feeds. The first two end
whatever the file before it has left unfinished on its line. -/

namespace Scanner

variable {s : Scanner} {rest text : List Char}

/-- The scan is in no literal and in no block comment. -/
structure Settled (s : Scanner) : Prop where
  /-- The next character counts. -/
  skip : s.skip = false
  /-- It is in code or in a line comment. -/
  region : s.region ≠ .text ∧ s.region ≠ .block

theorem settled_start : Settled start :=
  ⟨rfl, nofun, nofun⟩

/-- A line feed ends whatever may stand on a line. -/
theorem Settled.step_lineFeed (h : s.Settled) (next : List Char) : s.step '\n' next = start := by
  have hregion : s.region.step '\n' next = (.code, false) := by
    cases hs : s.region with
    | code => simp [Region.step, startsDirective]
    | line => rfl
    | text => exact absurd hs h.region.1
    | block => exact absurd hs h.region.2
  rw [step_of_none h.skip (name?_eq_none_of_ne (by decide)), hregion]
  rfl

theorem Settled.run_lineFeeds (h : s.Settled) : s.run rest ['\n', '\n'] = start := by
  rw [run, run, run, h.step_lineFeed, settled_start.step_lineFeed]

theorem marks_lineFeeds (lines : Nat) : s.marks rest lines ['\n', '\n'] = [] := by
  rw [marks, marks, marks, name?_eq_none_of_ne (by decide), name?_eq_none_of_ne (by decide)]
  rfl

/-- Over the header of a file the scan comes to the file's start, and finds the file. -/
theorem Settled.scan_header {path : String} (h : s.Settled) (hline : '\n' ∉ path.toList)
    (hend : path.toList.getLast?.any isSpace = false) (rest : List Char) :
    s.run rest (header path) = start ∧
      ∀ lines, s.marks rest lines (header path) = [⟨path, lines + 3⟩] := by
  have hline' : '\n' ∉ path.toList ++ [] := by rwa [List.append_nil]
  have hrest : NoneNext (· != '\n') (['\n', '\n'] ++ rest) := noneNext_cons.2 rfl
  have hmarker := @scan_markerLine start _ _ _ rfl rfl rfl hline' hend nofun hrest
  rw [List.append_nil, String.ofList_toList] at hmarker
  obtain ⟨hregion, hskip, hmarks⟩ := hmarker
  have hsettled : (start.run (['\n', '\n'] ++ rest) (marker ++ path.toList)).Settled :=
    ⟨hskip, by rw [hregion]; exact ⟨nofun, nofun⟩⟩
  rw [header, run_append, h.run_lineFeeds, run_append]
  refine ⟨hsettled.run_lineFeeds, fun lines ↦ ?_⟩
  rw [marks_append, marks_lineFeeds, h.run_lineFeeds, marks_append, marks_lineFeeds, hmarks]
  rfl

end Scanner

/-! ## The files -/

/-- The files of a stitched text, if `lines` lines have started in front of it. -/
def stitchedFiles (lines : Nat) : List (String × String) → List FileIdent
  | [] => []
  | file :: files => ⟨file.1, lines + 3⟩ :: stitchedFiles (lines + (chunk file).count '\n') files

theorem stitchedFiles_append (lines : Nat) (files more : List (String × String)) :
    stitchedFiles lines (files ++ more) = stitchedFiles lines files
      ++ stitchedFiles (lines + (files.flatMap chunk).count '\n') more := by
  induction files generalizing lines with
  | nil => rfl
  | cons file files ih =>
    rw [List.cons_append, stitchedFiles, stitchedFiles, ih, List.flatMap_cons, List.count_append,
      Nat.add_assoc, List.cons_append]

theorem le_startLine {lines : Nat} {files : List (String × String)} {ident : FileIdent}
    (h : ident ∈ stitchedFiles lines files) : lines + 3 ≤ ident.startLine := by
  induction files generalizing lines with
  | nil => cases h
  | cons file files ih =>
    rcases List.mem_cons.1 h with rfl | h
    · exact le_rfl
    · exact (Nat.add_le_add_right (Nat.le_add_right _ _) 3).trans (ih h)

namespace Scanner

variable {s : Scanner} {rest text : List Char}

/-- Whether there are markers does not depend on the lines in front. -/
theorem marks_eq_nil {lines : Nat} (h : s.marks rest lines text = []) (n : Nat) :
    s.marks rest n text = [] := by
  induction text generalizing s lines n with
  | nil => rfl
  | cons c text ih =>
    rw [marks, List.append_eq_nil_iff, List.map_eq_nil_iff] at h
    rw [marks, h.1, ih h.2]
    rfl

theorem marks_chunks (hs : s.Settled) {files : List (String × String)}
    (hfiles : ∀ file ∈ files, Stitchable file) (lines : Nat) :
    s.marks [] lines (files.flatMap chunk) = stitchedFiles lines files := by
  induction files generalizing s lines with
  | nil => rfl
  | cons file files ih =>
    obtain ⟨hfile, hfiles⟩ := List.forall_mem_cons.1 hfiles
    have hend := lineEnd_chunks files
    obtain ⟨hrun, hmarks⟩ := hs.scan_header hfile.path_line hfile.path_end
      (file.2.toList ++ files.flatMap chunk)
    have hcontent : start.run (files.flatMap chunk) file.2.toList = start.run [] file.2.toList :=
      run_of_lineEnd _ _ hend
    have hunmarked : start.marks [] 1 file.2.toList = [] := by
      have hfound := hfile.unmarked
      rw [ofSource_eq] at hfound
      simpa using hfound
    have hsettled : (start.run [] file.2.toList).Settled := by
      refine ⟨?_, hfile.ends⟩
      rw [Bool.eq_false_iff]
      intro hskip
      have hsound := @sound_run start [] file.2.toList nofun hskip
      simp at hsound
    rw [List.flatMap_cons, stitchedFiles, chunk, List.append_assoc, marks_append, List.append_nil,
      hmarks, hrun, marks_append, List.append_nil, marks_of_lineEnd _ _ _ hend,
      marks_eq_nil hunmarked, hcontent, ih hsettled hfiles, List.count_append, Nat.add_assoc]
    rfl

end Scanner

theorem files_stitch {files : List (String × String)} (h : ∀ file ∈ files, Stitchable file) :
    (ofSource (stitch files)).files.toList = stitchedFiles 1 files := by
  rw [ofSource_eq, toList_stitch]
  exact Scanner.marks_chunks Scanner.settled_start h 1

/-! ## Positions

What is needed of the other files is only how many lines stand in front, and that no marker of
theirs comes between. -/

/-- The file of a line is the one whose marker is the last at or before it. -/
theorem fileForLine?_eq {map : SourceMap} {before after : List FileIdent}
    {file : FileIdent} {line : Nat}
    (hfiles : map.files.toList = before ++ file :: after) (hfile : file.startLine ≤ line + 1)
    (hafter : ∀ f ∈ after, line + 1 < f.startLine) : map.fileForLine? line = some file := by
  have hbehind : after.reverse.find? (fun f ↦ decide (f.startLine ≤ line + 1)) = none := by
    rw [List.find?_eq_none]
    intro f hf
    have hlt := hafter f (List.mem_reverse.1 hf)
    simp only [decide_eq_true_eq]
    omega
  rw [fileForLine?, hfiles, List.reverse_append, List.reverse_cons, List.append_assoc,
    List.find?_append, hbehind, List.singleton_append,
      List.find?_cons_of_pos (by simpa using hfile)]
  rfl

/-- A text has as many lines as line feeds, and one more. -/
theorem line_place_le (source : String) (span : Span) :
    ((ofSource source).place span).line ≤ source.toList.count '\n' + 1 := by
  have hlines : (ofSource source).lines.toList
      = ⟨0, source.toList⟩ :: breaks 0 source.toList := by
    rw [ofSource_eq]
  obtain ⟨before, line, after, hline⟩ :=
    @exists_holds ⟨0, source.toList⟩ span.start (Nat.zero_le _) _ (pairwise_breaks 0 source.toList)
  have hlength := congrArg List.length hline.split
  rw [List.length_cons, length_breaks, List.length_append, List.length_cons] at hlength
  rw [← hlines] at hline
  have hindex : (placeIn before.length line span).line = before.length + 1 := by
    rw [placeIn]
    dsimp only
    split <;> rfl
  rw [place_eq hline, hindex]
  omega

section

variable {before after : List (String × String)} {path content : String}

/-- The text of a file between what is in front of it and what is behind it. -/
theorem toList_stitch_split (before after : List (String × String)) (path content : String) :
    (stitch (before ++ (path, content) :: after)).toList
      = before.flatMap chunk ++ header path ++ (content.toList ++ after.flatMap chunk) := by
  rw [toList_stitch, List.flatMap_append, List.flatMap_cons, chunk, List.append_assoc,
    List.append_assoc]

theorem getLast?_front (before : List (String × String)) (path : String) :
    (before.flatMap chunk ++ header path).getLast? = some '\n' := by
  rw [List.getLast?_append, getLast?_header, Option.some_or]

/-- The lines of a file's content belong to the file. -/
theorem fileForLine?_stitch (h : ∀ file ∈ before ++ (path, content) :: after, Stitchable file)
    {line : Nat} (hline : line ≤ content.toList.count '\n' + 1) :
    (ofSource (stitch (before ++ (path, content) :: after))).fileForLine?
      ((before.flatMap chunk ++ header path).count '\n' + line)
        = some ⟨path, (before.flatMap chunk).count '\n' + 4⟩ := by
  have hpath : '\n' ∉ path.toList := (h (path, content) (by simp)).path_line
  have hfiles := files_stitch h
  rw [stitchedFiles_append, stitchedFiles] at hfiles
  have hchunk : (chunk (path, content)).count '\n' = 4 + content.toList.count '\n' := by
    rw [chunk, List.count_append, count_header hpath]
  have hcount : (before.flatMap chunk ++ header path).count '\n'
      = (before.flatMap chunk).count '\n' + 4 := by
    rw [List.count_append, count_header hpath]
  have hfound := @fileForLine?_eq _ _ _ _ ((before.flatMap chunk ++ header path).count '\n' + line)
    hfiles (by dsimp only; omega) fun f hf ↦ by
      have hle := le_startLine hf
      omega
  rw [hfound, Option.some.injEq, FileIdent.mk.injEq]
  exact ⟨rfl, by omega⟩

/-- A place in the content of a file belongs to the file. -/
theorem file_position_stitch (h : ∀ file ∈ before ++ (path, content) :: after, Stitchable file)
    {span : Span} (hstart : span.start ≤ span.stop) (hstop : span.stop ≤ content.utf8ByteSize) :
    ((ofSource (stitch (before ++ (path, content) :: after))).position
      (span.later (byteLength (before.flatMap chunk ++ header path)))).file = path := by
  have hplace := place_within (toList_stitch_split before after path content)
    (.inr (getLast?_front before path)) hstart hstop
  rw [position, hplace]
  dsimp only
  rw [fileForLine?_stitch h (line_place_le content span)]

end

end SourceMap

/-- **Stitched positions.** A place in a file of a stitched text has the line and the columns that
it has in the file alone, and the file is the one it came from. -/
theorem position_stitch {files : List (String × String)} (h : ∀ file ∈ files, Stitchable file)
    {k : Nat} {path content : String} (hk : files[k]? = some (path, content)) {span : Span}
    (hstart : span.start ≤ span.stop) (hstop : span.stop ≤ content.utf8ByteSize) :
    let offset := (stitch (files.take k ++ [(path, "")])).utf8ByteSize
    Span.slice (stitch files) ⟨offset, offset + content.utf8ByteSize⟩ = content ∧
      (SourceMap.ofSource (stitch files)).position (span.later offset)
        = { (SourceMap.ofSource content).position span with file := path } := by
  obtain ⟨hlt, hget⟩ := List.getElem?_eq_some_iff.1 hk
  have hsplit : files = files.take k ++ (path, content) :: files.drop (k + 1) := by
    rw [← hget, ← List.drop_eq_getElem_cons hlt, List.take_append_drop]
  generalize files.take k = before, files.drop (k + 1) = after at hsplit ⊢
  subst hsplit
  have hfile : Stitchable (path, content) := h _ (by simp)
  -- all that stands in front of the content
  let front := before.flatMap SourceMap.chunk ++ SourceMap.header path
  have hsource : (stitch (before ++ (path, content) :: after)).toList
      = front ++ (content.toList ++ after.flatMap SourceMap.chunk) :=
    SourceMap.toList_stitch_split before after path content
  have hoffset : (stitch (before ++ [(path, "")])).utf8ByteSize = byteLength front := by
    rw [utf8ByteSize_eq_byteLength, SourceMap.toList_stitch, List.flatMap_append,
      List.flatMap_singleton, SourceMap.chunk, String.toList_empty, List.append_nil]
  have hcount : front.count '\n' = (before.flatMap SourceMap.chunk).count '\n' + 4 := by
    rw [List.count_append, SourceMap.count_header hfile.path_line]
  rw [hoffset]
  refine ⟨?_, ?_⟩
  · have hbetween := between_eq hsource
    rw [← utf8ByteSize_eq_byteLength] at hbetween
    exact String.toList_injective hbetween
  · have hplace := SourceMap.place_within hsource
      (.inr (SourceMap.getLast?_front before path)) hstart hstop
    have hfound := SourceMap.fileForLine?_stitch h (SourceMap.line_place_le content span)
    have halone : ∀ line, (SourceMap.ofSource content).fileForLine? line = none := by
      intro line
      rw [SourceMap.fileForLine?, hfile.unmarked]
      rfl
    rw [SourceMap.position, SourceMap.position, hplace]
    dsimp only
    rw [hfound, halone]
    dsimp only
    rw [Position.mk.injEq]
    exact ⟨rfl, by omega, rfl, rfl⟩

/-- A file with a marker inside a literal that ends in a comment, and one with a character of two
bytes on the second line. -/
def sampleFiles : List (String × String) :=
  [("/x/a.rai", "\"\n#__FILE__ no\" // é"), ("/x/b.rai", "/* \n */ é x")]

theorem position_stitch_sample :
    (∀ file ∈ sampleFiles, Stitchable file) ∧
      (SourceMap.ofSource (stitch sampleFiles)).position
        ((Span.mk 11 12).later (stitch (sampleFiles.take 1 ++ [("/x/b.rai", "")])).utf8ByteSize)
          = ⟨"/x/b.rai", 2, 7, 8⟩ := by
  have hfiles : ∀ file ∈ sampleFiles, Stitchable file := by decide +kernel
  have halone : (SourceMap.ofSource "/* \n */ é x").position ⟨11, 12⟩ = ⟨"<input>", 2, 7, 8⟩ := by
    decide +kernel
  have hplaced := (@position_stitch _ hfiles 1 _ _ rfl ⟨11, 12⟩ (by decide) (by decide +kernel)).2
  exact ⟨hfiles, hplaced.trans (by rw [halone])⟩

end CharacterScript
