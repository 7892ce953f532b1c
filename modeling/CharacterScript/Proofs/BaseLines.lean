import CharacterScript.Project
import CharacterScript.Proofs.Lexing.Splicing

/-!
# Bases by line and by token

What a script directory builds on is looked up twice. Loading a chain takes the first line of the
entry file that starts with the directive (`Project.scanBase?`), and does not care whether the line
is inside of a comment or a text literal. Compiling takes the first directive among the tokens, and
does not care what else is on its line.

## Places

Both are about places of one text. A `BaseLine` is a place that the first way counts; the scan finds
the first of them (`scanBase?_eq_some_iff`). A place that counts for both names the same path, but
for white space in front of it (`baseLine_iff_of_base`), and a base line that starts a token at all
is a directive (`base_of_baseLine`). So the two ways part only at a line that starts no token and at
a directive that does not come first on its line (`inStep_iff`).

## From a line to a place

The scan works on lines, which are cut out of the text, and lexemes are places in it. The bridge
is built once: what the first line with a property says is what the first place with the
corresponding property says, and this is proved along the cutting of lines (`FirstBase`). Behind
it only places are compared.

A base directive that a line starts with stands behind blanks. So its place in the line is not the
start of the line, and the two orders, that of lines and that of places, agree because there is
one base line at most on a line.
-/

namespace CharacterScript

/-! ## White space at the ends

A path loses white space at its end in both ways, but only one of the two drops what stands in
front of it. These lemmas say when nothing is lost. -/

section Trimming

variable {cs ending : List Char}

theorem trimEnd_append_spaces (hending : ∀ c ∈ ending, isSpace c = true) :
    trimEnd (cs ++ ending) = trimEnd cs := by
  rw [trimEnd, List.reverse_append, List.dropWhile_append_of_pos (by simpa using hending), trimEnd]

theorem trim_append_spaces (hending : ∀ c ∈ ending, isSpace c = true) :
    trim (cs ++ ending) = trim cs := by
  rw [trim, trimStart, List.dropWhile_append]
  split
  next hempty =>
    rw [trim, trimStart, List.isEmpty_iff.1 hempty, List.dropWhile_eq_nil_iff.2 hending]
  · exact trimEnd_append_spaces hending

/-- What does not end in white space is trimmed at its start only. -/
theorem trim_of_getLast? (h : cs.getLast?.any isSpace = false) : trim cs = trimStart cs := by
  have hlast : (trimStart cs).getLast?.any isSpace = false := by
    obtain ⟨blanks, hsplit⟩ := List.dropWhile_suffix isSpace (l := cs)
    cases hstart : trimStart cs with
    | nil => rfl
    | cons c rest =>
      rw [← hsplit, List.getLast?_append, show cs.dropWhile isSpace = c :: rest from hstart,
        List.getLast?_cons, Option.some_or] at h
      rw [List.getLast?_cons]
      exact h
  have htrim := @Piece.trimEnd_append (trimStart cs) [] hlast nofun
  rwa [List.append_nil] at htrim

theorem trimStart_ne_nil (hne : cs ≠ []) (h : cs.getLast?.any isSpace = false) :
    trimStart cs ≠ [] := by
  intro hnil
  rw [List.getLast?_eq_some_getLast hne, Option.any_some,
    List.dropWhile_eq_nil_iff.1 hnil _ (List.getLast_mem hne)] at h
  cases h

theorem trimEnd_eq_nil_iff : trimEnd cs = [] ↔ trim cs = [] := by
  obtain ⟨trailing, hsplit, htrailing, hlast⟩ := Piece.exists_trimEnd cs
  constructor
  · intro hnil
    rw [hsplit, hnil, trim_append_spaces htrailing]
    rfl
  · intro hnil
    by_contra hne
    refine trimStart_ne_nil hne hlast ?_
    rw [← trim_of_getLast? hlast, ← hnil, hsplit, trim_append_spaces htrailing, ← hsplit]

end Trimming

/-! ## Base lines -/

namespace Project

/-- What a base directive starts with. -/
def baseWord : List Char :=
  '#' :: "extends ".toList

/-- Behind its last line feed the text has nothing but white space. -/
def EndsBlank (before : List Char) : Prop :=
  ∀ c ∈ before.reverse.takeWhile (· != '\n'), isSpace c = true

instance (before : List Char) : Decidable (EndsBlank before) :=
  inferInstanceAs (Decidable (∀ _ ∈ _, _))

/-- Behind `before`, with nothing but white space in front of it on its line, the text has a base
directive that names `path`. -/
def NamesBase (text before : List Char) (path : String) : Prop :=
  EndsBlank before ∧ ∃ line rest, text = before ++ (baseWord ++ (line ++ rest)) ∧ '\n' ∉ line ∧
    NoneNext (· != '\n') rest ∧ trim line ≠ [] ∧ path = String.ofList (trim line)

/-- The base that a single line names. -/
def lineBase? (line : List Char) : Option String :=
  if baseWord.isPrefixOf (trim line) then some (String.ofList (trim ((trim line).drop 9))) else none

theorem scanBase?_eq (text : String) : scanBase? text = (lines text.toList).findSome? lineBase? :=
  rfl

variable {line rest text before : List Char} {path : String}

/-! ### One line -/

theorem lineBase?_append_returns {ending : List Char} (hending : ∀ c ∈ ending, c = '\r') :
    lineBase? (line ++ ending) = lineBase? line := by
  have hspaces : ∀ c ∈ ending, isSpace c = true := by
    intro c hc
    rw [hending c hc]
    decide
  rw [lineBase?, trim_append_spaces hspaces, lineBase?]

theorem trim_spaces_baseWord {blanks : List Char} (hblanks : ∀ c ∈ blanks, isSpace c = true)
    (rest : List Char) : trim (blanks ++ (baseWord ++ rest)) = trimEnd (baseWord ++ rest) := by
  rw [trim, trimStart, List.dropWhile_append_of_pos hblanks]
  rfl

/-- A path behind the directive keeps the blank between them. -/
theorem trimEnd_baseWord (hpath : trim rest ≠ []) :
    trimEnd (baseWord ++ rest) = baseWord ++ trimEnd rest := by
  obtain ⟨trailing, hsplit, htrailing, hlast⟩ := Piece.exists_trimEnd rest
  have hne : trimEnd rest ≠ [] := fun hnil ↦ hpath (trimEnd_eq_nil_iff.1 hnil)
  nth_rewrite 1 [hsplit]
  rw [← List.append_assoc]
  refine Piece.trimEnd_append ?_ htrailing
  rw [List.getLast?_append, List.getLast?_eq_some_getLast hne, Option.some_or]
  rwa [List.getLast?_eq_some_getLast hne] at hlast

theorem trimEnd_baseWord_of_trim_eq_nil (hpath : trim rest = []) :
    baseWord.isPrefixOf (trimEnd (baseWord ++ rest)) = false := by
  obtain ⟨trailing, hsplit, htrailing, -⟩ := Piece.exists_trimEnd rest
  have hspaces : ∀ c ∈ ' ' :: rest, isSpace c = true := by
    rw [hsplit, trimEnd_eq_nil_iff.2 hpath, List.nil_append]
    exact List.forall_mem_cons.2 ⟨by decide, htrailing⟩
  have htrim := @Piece.trimEnd_append "#extends".toList (' ' :: rest) (by decide) hspaces
  have hword : "#extends".toList ++ ' ' :: rest = baseWord ++ rest := rfl
  rw [hword] at htrim
  rw [htrim]
  decide

/-- Behind blanks, the directive and a path are read as the path. -/
theorem lineBase?_baseWord {blanks : List Char} (hblanks : ∀ c ∈ blanks, isSpace c = true)
    (hpath : trim rest ≠ []) :
    lineBase? (blanks ++ (baseWord ++ rest)) = some (String.ofList (trim rest)) := by
  obtain ⟨trailing, hsplit, htrailing, -⟩ := Piece.exists_trimEnd rest
  have htrim : trim (trimEnd rest) = trim rest := by
    nth_rewrite 2 [hsplit]
    rw [trim_append_spaces htrailing]
  have hprefix : baseWord.isPrefixOf (baseWord ++ trimEnd rest) = true :=
    List.isPrefixOf_iff_prefix.2 (List.prefix_append _ _)
  rw [lineBase?, trim_spaces_baseWord hblanks, trimEnd_baseWord hpath, if_pos hprefix,
    List.drop_left' (by rfl), htrim]

theorem lineBase?_eq_some_iff : lineBase? line = some path ↔
    ∃ blanks rest, line = blanks ++ (baseWord ++ rest) ∧ (∀ c ∈ blanks, isSpace c = true) ∧
      trim rest ≠ [] ∧ path = String.ofList (trim rest) := by
  constructor
  · intro h
    have hprefix : baseWord.isPrefixOf (trim line) = true := by
      by_contra hnone
      rw [lineBase?, if_neg hnone] at h
      cases h
    obtain ⟨blanks, tail, hsplit, hblanks, htail⟩ := exists_run isSpace line
    have hstart : trimStart line = tail := by
      rw [hsplit, trimStart, List.dropWhile_append_of_pos hblanks]
      cases tail with
      | nil => rfl
      | cons c tail => rw [List.dropWhile_cons, if_neg (by simpa using htail)]
    obtain ⟨trailing, htrim, -⟩ := Piece.exists_trimEnd tail
    rw [trim, hstart] at hprefix
    obtain ⟨rest, hrest⟩ := List.isPrefixOf_iff_prefix.1 hprefix
    have hsplit' : line = blanks ++ (baseWord ++ (rest ++ trailing)) := by
      rw [hsplit, htrim, ← hrest, List.append_assoc]
    -- without a path the directive loses its own blank, and the line does not start with it
    have hpath : trim (rest ++ trailing) ≠ [] := by
      intro hnil
      have hnone := trimEnd_baseWord_of_trim_eq_nil hnil
      rw [← List.append_assoc, hrest, ← htrim, hprefix] at hnone
      cases hnone
    refine ⟨blanks, rest ++ trailing, hsplit', hblanks, hpath, ?_⟩
    rw [hsplit', lineBase?_baseWord hblanks hpath] at h
    exact (Option.some.inj h).symm
  · rintro ⟨blanks, rest, rfl, hblanks, hpath, rfl⟩
    exact lineBase?_baseWord hblanks hpath

/-! ### Line by line -/

theorem endsBlank_of_not_mem (h : '\n' ∉ before) :
    EndsBlank before ↔ ∀ c ∈ before, isSpace c = true := by
  have hall : before.reverse.takeWhile (· != '\n') = before.reverse :=
    List.takeWhile_eq_self_iff.2 (bne_of_not_mem (by rwa [List.mem_reverse]))
  rw [EndsBlank, hall]
  simp

/-- Only the last line counts. -/
theorem endsBlank_append : EndsBlank (line ++ '\n' :: before) ↔ EndsBlank before := by
  have hlast : (line ++ '\n' :: before).reverse.takeWhile (· != '\n')
      = before.reverse.takeWhile (· != '\n') := by
    rw [List.reverse_append, List.reverse_cons, List.append_assoc, List.takeWhile_append]
    split
    next hall =>
      have hself := (List.takeWhile_prefix (· != '\n')).eq_of_length hall
      simp [hself]
    · rfl
  rw [EndsBlank, hlast, EndsBlank]

theorem namesBase_of_not_mem (h : '\n' ∉ text) :
    NamesBase text before path ↔ (∀ c ∈ before, isSpace c = true) ∧
      ∃ rest, text = before ++ (baseWord ++ rest) ∧ trim rest ≠ [] ∧
        path = String.ofList (trim rest) := by
  constructor
  · rintro ⟨hbefore, line, rest, rfl, -, hrest, hpath, rfl⟩
    simp only [List.mem_append, not_or] at h
    obtain ⟨hfront, -, -, htail⟩ := h
    have hnil : rest = [] := by
      cases rest with
      | nil => rfl
      | cons c rest =>
        obtain rfl : c = '\n' := by simpa using hrest
        exact absurd List.mem_cons_self htail
    refine ⟨(endsBlank_of_not_mem hfront).1 hbefore, line, ?_, hpath, rfl⟩
    rw [hnil, List.append_nil]
  · rintro ⟨hbefore, rest, rfl, hpath, rfl⟩
    simp only [List.mem_append, not_or] at h
    obtain ⟨hfront, -, htail⟩ := h
    exact ⟨(endsBlank_of_not_mem hfront).2 hbefore, rest, [], by rw [List.append_nil], htail,
      noneNext_nil _, hpath, rfl⟩

/-- A text has one first line. -/
theorem eq_of_lineEnds {a b rest rest' : List Char} (ha : '\n' ∉ a) (hb : '\n' ∉ b)
    (hrest : NoneNext (· != '\n') rest) (hrest' : NoneNext (· != '\n') rest')
    (h : a ++ rest = b ++ rest') : a = b := by
  rw [← takeWhile_append_eq_iff.2 ⟨bne_of_not_mem ha, hrest⟩, h,
    takeWhile_append_eq_iff.2 ⟨bne_of_not_mem hb, hrest'⟩]

/-- A base line is the first line, or it is one of the lines behind. -/
theorem namesBase_append (h : '\n' ∉ line) :
    NamesBase (line ++ '\n' :: text) before path ↔ NamesBase line before path ∨
      ∃ more, before = line ++ '\n' :: more ∧ NamesBase text more path := by
  constructor
  · rintro ⟨hbefore, name, rest, hsplit, hname, hrest, hpath, rfl⟩
    obtain ⟨cut, rfl, htail⟩ | ⟨cut, rfl, htail⟩ := List.append_eq_append_iff.1 hsplit
    · cases cut with
      | nil => cases htail
      | cons c more =>
        obtain ⟨rfl, rfl⟩ := List.cons.inj htail
        exact .inr ⟨more, rfl, endsBlank_append.1 hbefore, name, rest, rfl, hname,
          hrest, hpath, rfl⟩
    · rw [List.mem_append, not_or] at h
      have hword : '\n' ∉ baseWord ++ name := by
        rw [List.mem_append, not_or]
        exact ⟨by decide, hname⟩
      have hcut : baseWord ++ name = cut :=
        eq_of_lineEnds hword h.2 hrest (noneNext_cons.2 rfl) (by rw [List.append_assoc, htail])
      refine .inl ⟨hbefore, name, [], ?_, hname, noneNext_nil _, hpath, rfl⟩
      rw [List.append_nil, hcut]
  · rintro (hfirst | ⟨more, rfl, hmore, name, rest, rfl, hname, hrest, hpath, rfl⟩)
    · obtain ⟨hbefore, rest, rfl, hpath, rfl⟩ := (namesBase_of_not_mem h).1 hfirst
      simp only [List.mem_append, not_or] at h
      refine ⟨(endsBlank_of_not_mem h.1).2 hbefore, rest, '\n' :: text, ?_, h.2.2,
        noneNext_cons.2 rfl, hpath, rfl⟩
      simp only [List.append_assoc]
    · refine ⟨endsBlank_append.2 hmore, name, rest, ?_, hname, hrest, hpath, rfl⟩
      rw [List.append_assoc, List.cons_append]

theorem exists_namesBase_iff (h : '\n' ∉ line) :
    lineBase? line = some path ↔ ∃ before, NamesBase line before path := by
  rw [lineBase?_eq_some_iff]
  constructor
  · rintro ⟨blanks, rest, rfl, hblanks, hpath, rfl⟩
    exact ⟨blanks, (namesBase_of_not_mem h).2 ⟨hblanks, rest, rfl, hpath, rfl⟩⟩
  · rintro ⟨before, hnames⟩
    obtain ⟨hbefore, rest, rfl, hpath, rfl⟩ := (namesBase_of_not_mem h).1 hnames
    exact ⟨before, rest, rfl, hbefore, hpath, rfl⟩

/-- The place of the first base line, which names `path`. -/
def FirstBase (text before : List Char) (path : String) : Prop :=
  NamesBase text before path ∧
    ∀ before' path', NamesBase text before' path' → byteLength before ≤ byteLength before'

/-- A line has one base directive at most. -/
theorem firstBase_of_not_mem (h : '\n' ∉ line) (hnames : NamesBase line before path) :
    FirstBase line before path := by
  refine ⟨hnames, fun before' path' hnames' ↦ ?_⟩
  obtain ⟨hbefore, rest, rfl, -⟩ := (namesBase_of_not_mem h).1 hnames
  obtain ⟨hbefore', rest', hsplit, -⟩ := (namesBase_of_not_mem h).1 hnames'
  have hnext : ∀ rest, NoneNext isSpace (baseWord ++ rest) := fun rest ↦ noneNext_cons.2 (by decide)
  have hrun := takeWhile_append_eq_iff.2 ⟨hbefore, hnext rest⟩
  rw [hsplit, takeWhile_append_eq_iff.2 ⟨hbefore', hnext rest'⟩] at hrun
  rw [hrun]

theorem FirstBase.append_right (h : '\n' ∉ line) (hfirst : FirstBase line before path)
    (text : List Char) :
    FirstBase (line ++ '\n' :: text) before path := by
  refine ⟨(namesBase_append h).2 (.inl hfirst.1), fun before' path' hnames ↦ ?_⟩
  obtain hnames | ⟨more, rfl, -⟩ := (namesBase_append h).1 hnames
  · exact hfirst.2 before' path' hnames
  · obtain ⟨-, rest, rfl, -⟩ := (namesBase_of_not_mem h).1 hfirst.1
    rw [List.append_assoc, byteLength_append]
    exact Nat.le_add_right _ _

theorem FirstBase.append_left (h : '\n' ∉ line)
    (hnone : ∀ before path, ¬ NamesBase line before path)
    (hfirst : FirstBase text before path) :
    FirstBase (line ++ '\n' :: text) (line ++ '\n' :: before) path := by
  refine ⟨(namesBase_append h).2 (.inr ⟨before, rfl, hfirst.1⟩), fun before' path' hnames ↦ ?_⟩
  obtain hfound | ⟨more, rfl, hfound⟩ := (namesBase_append h).1 hnames
  · exact absurd hfound (hnone _ _)
  · have hle := hfirst.2 more path' hfound
    simp only [byteLength_append, byteLength_cons]
    omega

/-- The first line that names a base is the first base line. -/
theorem findSome?_lineBase? (text : List Char) :
    ((lines text).findSome? lineBase? = none → ∀ before path, ¬ NamesBase text before path) ∧
      ∀ path, (lines text).findSome? lineBase? = some path →
        ∃ before, FirstBase text before path := by
  have hnone : ∀ {line : List Char}, '\n' ∉ line → lineBase? line = none →
      ∀ before path, ¬ NamesBase line before path := by
    intro line hline hbase before path hnames
    rw [(exists_namesBase_iff hline).2 ⟨before, hnames⟩] at hbase
    cases hbase
  -- by the number of lines: the first one names a base, or the first of the others does
  induction hn : text.length using Nat.strong_induction_on generalizing text with
  | _ n ih =>
  obtain ⟨line, rest, rfl, hrun, hrest⟩ := exists_run (· != '\n') text
  have hline : '\n' ∉ line := fun hmem ↦ absurd (hrun _ hmem) (by decide)
  cases rest with
  | nil =>
    rw [List.append_nil]
    have hscan : (lines line).findSome? lineBase? = lineBase? line := by
      rw [lines_of_not_mem hline]
      cases line with
      | nil => rfl
      | cons c line => simp
    rw [hscan]
    refine ⟨hnone hline, fun path hbase ↦ ?_⟩
    obtain ⟨before, hnames⟩ := (exists_namesBase_iff hline).1 hbase
    exact ⟨before, firstBase_of_not_mem hline hnames⟩
  | cons c rest =>
    obtain rfl : c = '\n' := by simpa using hrest
    obtain ⟨body, ending, hbody, hending, hlines⟩ := lines_append hline rest
    obtain ⟨ihnone, ihsome⟩ := ih rest.length (by simp [← hn]; omega) rest rfl
    rw [hlines, List.findSome?_cons, ← lineBase?_append_returns hending, ← hbody]
    cases hbase : lineBase? line with
    | some path =>
      refine ⟨nofun, fun path' hpath ↦ ?_⟩
      cases hpath
      obtain ⟨before, hnames⟩ := (exists_namesBase_iff hline).1 hbase
      exact ⟨before, (firstBase_of_not_mem hline hnames).append_right hline rest⟩
    | none =>
      refine ⟨fun hscan before path hnames ↦ ?_, fun path hscan ↦ ?_⟩
      · obtain hnames | ⟨more, -, hnames⟩ := (namesBase_append hline).1 hnames
        · exact hnone hline hbase _ _ hnames
        · exact ihnone hscan _ _ hnames
      · obtain ⟨before, hfirst⟩ := ihsome path hscan
        exact ⟨_, hfirst.append_left hline (hnone hline hbase)⟩

/-- At byte `place`, first on its line, the text has a base directive that names `path`. -/
def BaseLine (source : String) (place : Nat) (path : String) : Prop :=
  ∃ before, NamesBase source.toList before path ∧ byteLength before = place

/-- The first base line of a text. -/
def FirstBaseLine (source : String) (place : Nat) (path : String) : Prop :=
  BaseLine source place path ∧ ∀ place' path', BaseLine source place' path' → place ≤ place'

/-- A place cuts a text in one way. -/
theorem eq_of_byteLength_eq {a b rest rest' : List Char} (h : a ++ rest = b ++ rest')
    (hplace : byteLength a = byteLength b) : a = b ∧ rest = rest' := by
  obtain ⟨cut, rfl, rfl⟩ := append_of_byteLength_le h hplace.ge
  have hnil : cut = [] := by
    cases cut with
    | nil => rfl
    | cons c cut =>
      have hpos := c.utf8Size_pos
      rw [byteLength_append, byteLength_cons] at hplace
      omega
  rw [hnil, List.append_nil]
  exact ⟨rfl, rfl⟩

theorem BaseLine.path_eq {source : String} {place : Nat} {path path' : String}
    (h : BaseLine source place path) (h' : BaseLine source place path') : path = path' := by
  obtain ⟨before, ⟨-, line, rest, htext, hline, hrest, -, rfl⟩, rfl⟩ := h
  obtain ⟨before', ⟨-, line', rest', htext', hline', hrest', -, rfl⟩, hplace⟩ := h'
  obtain ⟨rfl, htail⟩ := eq_of_byteLength_eq (htext.symm.trans htext') hplace.symm
  rw [eq_of_lineEnds hline hline' hrest hrest' (List.append_cancel_left htail)]

theorem FirstBaseLine.place_eq {source : String} {place place' : Nat} {path path' : String}
    (h : FirstBaseLine source place path) (h' : FirstBaseLine source place' path') :
      place = place' :=
  Nat.le_antisymm (h.2 _ _ h'.1) (h'.2 _ _ h.1)

theorem exists_firstBaseLine {source : String} :
    (∃ path, scanBase? source = some path ∧ ∃ place, FirstBaseLine source place path) ∨
      scanBase? source = none ∧ ∀ place path, ¬ BaseLine source place path := by
  obtain ⟨hnone, hsome⟩ := findSome?_lineBase? source.toList
  rw [← scanBase?_eq] at hnone hsome
  cases hscan : scanBase? source with
  | none =>
    refine .inr ⟨rfl, ?_⟩
    rintro _ path ⟨before, hnames, rfl⟩
    exact hnone hscan before path hnames
  | some path =>
    obtain ⟨before, hnames, hle⟩ := hsome path hscan
    refine .inl ⟨path, rfl, byteLength before, ⟨before, hnames, rfl⟩, ?_⟩
    rintro _ path' ⟨before', hnames', rfl⟩
    exact hle before' path' hnames'

/-- The scan finds the first base line. -/
theorem scanBase?_eq_some_iff {source path : String} :
    scanBase? source = some path ↔ ∃ place, FirstBaseLine source place path := by
  obtain ⟨found, hscan, place, hfirst⟩ | ⟨hscan, hnone⟩ := @exists_firstBaseLine source
  · rw [hscan]
    constructor
    · intro h
      cases h
      exact ⟨place, hfirst⟩
    · rintro ⟨place', hfirst'⟩
      obtain rfl := hfirst.place_eq hfirst'
      rw [hfirst.1.path_eq hfirst'.1]
  · rw [hscan]
    refine ⟨nofun, ?_⟩
    rintro ⟨place, hline, -⟩
    exact absurd hline (hnone place path)

end Project

/-! ## Base directives

A directive among the lexemes was read from the same characters that the scan looks for. The other
way round the characters may stand in a comment or in a literal, and whether they do is asked of
the lexemes, not of the text. -/

/-- The path that a token names as a base. -/
def Lexeme.base? (l : Lexeme) : Option String :=
  match l.token with
  | .directive .base path => some path
  | _ => none

theorem Lexeme.base?_eq_some {l : Lexeme} {path : String} :
    l.base? = some path ↔ l.token = .directive .base path := by
  rw [base?]
  split
  next path' htoken =>
    rw [htoken]
    simp
  next hnone =>
    refine ⟨nofun, fun htoken ↦ absurd htoken (hnone path)⟩

/-- Nothing but white space stands in front of the token on its line. -/
def Lexeme.OpensLine (source : String) (l : Lexeme) : Prop :=
  Project.EndsBlank (between source 0 l.span.start)

instance (source : String) (l : Lexeme) : Decidable (l.OpensLine source) :=
  inferInstanceAs (Decidable (Project.EndsBlank _))

/-- A path without the white space in front of it. -/
def unindented (path : String) : String :=
  String.ofList (trimStart path.toList)

namespace Project

/-- How a base directive is written. -/
theorem exists_line_of_spells {last : Option Token} {path : String} {front rest : List Char}
    (h : Spells (.directive .base path) front)
    (hends : Token.Ends last front rest (.directive .base path)) :
    ∃ line, front ++ rest = baseWord ++ (line ++ rest) ∧ '\n' ∉ line ∧ NoneNext (· != '\n') rest ∧
      trim line ≠ [] ∧ unindented path = String.ofList (trim line) := by
  cases h with
  | @directive _ path trailing hne hpath htrailing hline =>
    have htrim : trim (path ++ trailing) = trimStart path := by
      rw [trim_append_spaces htrailing, trim_of_getLast? hpath]
    refine ⟨path ++ trailing, rfl, hline, hends, ?_, ?_⟩
    · rw [htrim]
      exact trimStart_ne_nil hne hpath
    · rw [htrim, unindented, String.toList_ofList]

variable {source : String} {ts : List Lexeme} {l : Lexeme} {path : String}

/-- A token stands somewhere in the text. -/
theorem exists_cut_of_mem (hlex : lex source = .ok ts) (hl : l ∈ ts) (hne : l.token ≠ .eof) :
    ∃ before front rest last, source.toList = before ++ (front ++ rest) ∧
      byteLength before = l.span.start ∧ Spells l.token front ∧ l.token.Ends last front rest := by
  obtain ⟨prev, next, hts⟩ := List.append_of_mem hl
  obtain ⟨before, front, rest, last, htext, -, hspells, hends, hspan, -⟩ :=
    (lex_eq_ok_iff.1 hlex).exists_token hne hts
  refine ⟨before, front, rest, last, htext, ?_, hspells, hends⟩
  rw [hspan, Nat.zero_add]

/-- A base directive that comes first on its line is a base line, and names the same path. -/
theorem baseLine_iff_of_base (hlex : lex source = .ok ts) (hl : l ∈ ts)
    (hbase : l.base? = some path)
    (path' : String) :
    BaseLine source l.span.start path' ↔ l.OpensLine source ∧ path' = unindented path := by
  have htoken := Lexeme.base?_eq_some.1 hbase
  obtain ⟨before, front, rest, last, htext, hplace, hspells, hends⟩ :=
    exists_cut_of_mem hlex hl (by rw [htoken]; exact nofun)
  rw [htoken] at hspells hends
  obtain ⟨line, hfront, hline, hrest, hpath, hnamed⟩ := exists_line_of_spells hspells hends
  rw [Lexeme.OpensLine, ← hplace, between_zero htext]
  rw [hfront] at htext
  have hthere : EndsBlank before → BaseLine source (byteLength before) (unindented path) :=
    fun hblank ↦ ⟨before, ⟨hblank, line, rest, htext, hline, hrest, hpath, hnamed⟩, rfl⟩
  constructor
  · intro hfound
    obtain ⟨before', ⟨hblank, line', rest', htext', -⟩, hplace'⟩ := id hfound
    obtain ⟨rfl, -⟩ := eq_of_byteLength_eq (htext'.symm.trans htext) hplace'
    exact ⟨hblank, hfound.path_eq (hthere hblank)⟩
  · rintro ⟨hblank, rfl⟩
    exact hthere hblank

/-- What starts with a base directive is read as one. -/
theorem read_of_baseWord {last : Option Token} {line rest : List Char} (hline : '\n' ∉ line)
    (hrest : NoneNext (· != '\n') rest) (hpath : trim line ≠ []) :
    ∃ path width, Piece.read last '#' ("extends ".toList ++ (line ++ rest))
      = .ok (.token (.directive .base path) width) := by
  obtain ⟨trailing, hsplit, htrailing, hlast⟩ := Piece.exists_trimEnd line
  have hne : trimEnd line ≠ [] := fun hnil ↦ hpath (trimEnd_eq_nil_iff.1 hnil)
  have hread := @Piece.read_of_directive last rest .base _ _ hne hlast htrailing
    (hsplit ▸ hline) hrest
  rw [← hsplit] at hread
  exact ⟨_, _, hread⟩

/-- A base line that starts a token is a base directive. -/
theorem base_of_baseLine (hlex : lex source = .ok ts) (hl : l ∈ ts)
    (hfound : BaseLine source l.span.start path) : ∃ path', l.base? = some path' := by
  obtain ⟨before, ⟨-, line, rest, htext, hline, hrest, hpath, -⟩, hplace⟩ := hfound
  have hne : l.token ≠ .eof := by
    intro heof
    obtain ⟨front, rfl, hfront⟩ := (lex_tiles hlex).ends
    obtain hmem | hmem := List.mem_append.1 hl
    · exact (hfront l hmem).1 heof
    · rw [List.mem_singleton.1 hmem, utf8ByteSize_eq_byteLength, htext, byteLength_append,
        byteLength_append] at hplace
      have hpos : 0 < byteLength baseWord := by decide
      dsimp only at hplace
      omega
  obtain ⟨before', front, rest', last, htext', hplace', hspells, hends⟩ :=
    exists_cut_of_mem hlex hl hne
  obtain ⟨rfl, htail⟩ := eq_of_byteLength_eq (htext.symm.trans htext') (hplace.trans hplace'.symm)
  obtain ⟨c, more, rfl⟩ := List.exists_cons_of_ne_nil hspells.ne_nil
  rw [baseWord, List.cons_append, List.cons_append, List.cons.injEq] at htail
  obtain ⟨rfl, hmore⟩ := htail
  obtain ⟨path', width, hread⟩ := @read_of_baseWord last line rest hline hrest hpath
  have hread' := Piece.read_of_spells hspells hends
  rw [← hmore, hread] at hread'
  rw [Except.ok.injEq, Piece.token.injEq] at hread'
  exact ⟨path', Lexeme.base?_eq_some.2 hread'.1.symm⟩

/-! ## The first of each -/

/-- The first token that names a base. -/
def firstBase? (ts : List Lexeme) : Option Lexeme :=
  ts.find? (·.base?.isSome)

theorem base_of_firstBase? (h : firstBase? ts = some l) :
    l ∈ ts ∧ ∃ path, l.base? = some path ∧ ts.findSome? Lexeme.base? = some path := by
  obtain ⟨hbase, front, rest, rfl, hfront⟩ := List.find?_eq_some_iff_append.1 h
  obtain ⟨path, hpath⟩ := Option.isSome_iff_exists.1 hbase
  refine ⟨List.mem_append_right _ List.mem_cons_self, path, hpath, ?_⟩
  refine List.findSome?_eq_some_iff.2 ⟨front, l, rest, rfl, hpath, fun m hm ↦ ?_⟩
  simpa using hfront m hm

theorem exists_firstBase? (hl : l ∈ ts) (hbase : l.base? = some path) :
    ∃ first, firstBase? ts = some first := by
  refine Option.isSome_iff_exists.1 (List.find?_isSome.2 ⟨l, hl, ?_⟩)
  rw [hbase]
  rfl

theorem start_le_of_firstBase? (hlex : lex source = .ok ts) {first : Lexeme}
    (hfirst : firstBase? ts = some first) (hl : l ∈ ts) (hbase : l.base? = some path) :
    first.span.start ≤ l.span.start := by
  obtain ⟨-, front, rest, rfl, hfront⟩ := List.find?_eq_some_iff_append.1 hfirst
  have hincreasing := (List.pairwise_append.1 (lex_tiles hlex).increasing).2.1
  obtain hl | hl := List.mem_append.1 hl
  · have hnone := hfront l hl
    rw [hbase] at hnone
    cases hnone
  · obtain rfl | hl := List.mem_cons.1 hl
    · exact le_rfl
    · exact (List.rel_of_pairwise_cons hincreasing hl).1.le

/-- What is scanned is what is read: the first base line and the first base directive are at one
place, or there is neither. -/
def InStep (source : String) (ts : List Lexeme) : Prop :=
  ∀ place, (∃ path, FirstBaseLine source place path) ↔
    ∃ l, firstBase? ts = some l ∧ l.span.start = place

/-- Lines and tokens part only where the first base line starts no token, or where the first base
directive does not come first on its line. -/
theorem inStep_iff (hlex : lex source = .ok ts) : InStep source ts ↔
    (∀ place path, FirstBaseLine source place path → ∃ l ∈ ts, l.span.start = place) ∧
      ∀ l, firstBase? ts = some l → l.OpensLine source := by
  constructor
  · refine fun h ↦ ⟨fun place path hfirst ↦ ?_, fun l hl ↦ ?_⟩
    · obtain ⟨l, hl, hplace⟩ := (h place).1 ⟨path, hfirst⟩
      exact ⟨l, (base_of_firstBase? hl).1, hplace⟩
    · obtain ⟨hmem, path, hpath, -⟩ := base_of_firstBase? hl
      obtain ⟨path', hfirst⟩ := (h l.span.start).2 ⟨l, hl, rfl⟩
      exact ((baseLine_iff_of_base hlex hmem hpath path').1 hfirst.1).1
  · rintro ⟨hlines, htokens⟩
    -- a directive that comes first on its line is a base line, so the first is not behind it
    have hline : ∀ {l}, firstBase? ts = some l → ∃ path, BaseLine source l.span.start path := by
      intro l hl
      obtain ⟨hmem, path, hpath, -⟩ := base_of_firstBase? hl
      exact ⟨_, (baseLine_iff_of_base hlex hmem hpath _).2 ⟨htokens l hl, rfl⟩⟩
    have hread : ∀ {place path}, FirstBaseLine source place path →
        ∃ l, firstBase? ts = some l ∧ l.span.start = place := by
      intro place path hfirst
      obtain ⟨m, hm, rfl⟩ := hlines place path hfirst
      obtain ⟨path', hbase⟩ := base_of_baseLine hlex hm hfirst.1
      obtain ⟨l, hl⟩ := exists_firstBase? hm hbase
      obtain ⟨path'', hthere⟩ := hline hl
      exact ⟨l, hl, Nat.le_antisymm (start_le_of_firstBase? hlex hl hm hbase) (hfirst.2 _ _ hthere)⟩
    refine fun place ↦ ⟨fun ⟨path, hfirst⟩ ↦ hread hfirst, ?_⟩
    rintro ⟨l, hl, rfl⟩
    obtain ⟨path, hthere⟩ := hline hl
    obtain ⟨path', -, place', hfirst⟩ | ⟨-, hnone⟩ := @exists_firstBaseLine source
    · obtain ⟨l', hl', rfl⟩ := hread hfirst
      rw [hl] at hl'
      cases hl'
      exact ⟨path', hfirst⟩
    · exact absurd hthere (hnone _ _)

/-- Where lines and tokens are in step, the scanned base is the base that is read, without the white
space in front of it. -/
theorem scanBase?_of_inStep (hlex : lex source = .ok ts) (h : InStep source ts) :
    scanBase? source = (ts.findSome? Lexeme.base?).map unindented := by
  cases hfirst : firstBase? ts with
  | some l =>
    obtain ⟨hmem, path, hpath, hread⟩ := base_of_firstBase? hfirst
    obtain ⟨path', hline⟩ := (h l.span.start).2 ⟨l, hfirst, rfl⟩
    obtain ⟨-, rfl⟩ := (baseLine_iff_of_base hlex hmem hpath path').1 hline.1
    rw [hread, scanBase?_eq_some_iff.2 ⟨_, hline⟩]
    rfl
  | none =>
    have hread : ts.findSome? Lexeme.base? = none := by
      refine List.findSome?_eq_none_iff.2 fun l hl ↦ ?_
      simpa using List.find?_eq_none.1 hfirst l hl
    obtain ⟨path, -, place, hline⟩ | ⟨hscan, -⟩ := @exists_firstBaseLine source
    · obtain ⟨l, hl, -⟩ := (h place).1 ⟨path, hline⟩
      rw [hfirst] at hl
      cases hl
    · rw [hscan, hread]
      rfl

/-- Where the text begins with the base directive that is read first, its lines and its tokens are
in step. -/
theorem inStep_of_start {source : String} {ts : List Lexeme} {l : Lexeme}
    (hlex : lex source = .ok ts)
    (hfirst : firstBase? ts = some l) (hstart : l.span.start = 0) : InStep source ts := by
  obtain ⟨hmem, path, hpath, -⟩ := base_of_firstBase? hfirst
  have hopens : l.OpensLine source := by
    have hnothing : between source 0 0 = [] := @between_zero source [] source.toList rfl
    rw [Lexeme.OpensLine, hstart, hnothing]
    exact fun c hc ↦ absurd hc List.not_mem_nil
  refine (inStep_iff hlex).2 ⟨fun place path' hline ↦ ⟨l, hmem, ?_⟩, fun l' hl' ↦ ?_⟩
  · have hthere := (baseLine_iff_of_base hlex hmem hpath _).2 ⟨hopens, rfl⟩
    have hle := hline.2 _ _ hthere
    omega
  · rw [hfirst] at hl'
    cases hl'
    exact hopens

end Project

end CharacterScript
