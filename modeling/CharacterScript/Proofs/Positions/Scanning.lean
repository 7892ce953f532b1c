import CharacterScript.Proofs.Lexing.Walk
import CharacterScript.SourceMap

/-!
# The scan for markers, apart from what it collects

What `SourceMap.scan` does next depends on three things only: the region it is in, whether a line
starts, and whether the next character belongs to the mark before it. A `Scanner` is these three.
What the scan collects is said beside it: the starts of lines are the places behind the line feeds
(`breaks`), whatever the regions are, and the files are those whose markers a scanner names on its
way (`marks`). That the two are all there is to a scan is `SourceMap.scan_eq`.

## Looking ahead

A scanner looks ahead, but never beyond the end of its line (`Scanner.run_of_lineEnd`). So a text
can be cut at the end of a line, and its parts scanned one by one.

## What is collected

The scan pushes lines and files on arrays as it goes. Lists that are computed from the text are
easier to reason about, and they come out the same: what is collected at a character depends on
the scanner in front of it and on nothing that was collected before.
-/

namespace CharacterScript

namespace SourceMap

/-! ## Scanners -/

/-- The state of a scan. -/
structure Scanner where
  /-- What the place is part of: code, a comment or a literal. -/
  region : Region
  /-- Whether a line starts there. -/
  atStart : Bool
  /-- Whether the next character belongs to a mark that has been read and is passed over. -/
  skip : Bool

namespace Scanner

/-- At the start of a text, or of a line outside of everything. -/
def start : Scanner :=
  ⟨.code, true, false⟩

/-- The name of the marker that starts here, if one does. -/
def name? (s : Scanner) (text : List Char) : Option String :=
  if !s.skip && s.atStart && s.region == .code then markerName? text else none

/-- The scanner behind the character `c`, with `next` coming up. -/
def step (s : Scanner) (c : Char) (next : List Char) : Scanner :=
  if s.skip then ⟨s.region, false, false⟩
  else
    match s.name? (c :: next) with
    | some _ => ⟨.line, false, false⟩
    | none => ⟨(s.region.step c next).1, c == '\n', (s.region.step c next).2⟩

/-- The scanner behind a text, with `rest` coming up. -/
def run (rest : List Char) (s : Scanner) : List Char → Scanner
  | [] => s
  | c :: cs => run rest (s.step c (cs ++ rest)) cs

/-- The files marked in a text with `rest` coming up, if `lines` lines have started so far. -/
def marks (rest : List Char) (lines : Nat) (s : Scanner) : List Char → List FileIdent
  | [] => []
  | c :: cs =>
    (s.name? (c :: (cs ++ rest))).toList.map (⟨·, lines + 1⟩) ++
      marks rest (lines + [c].count '\n') (s.step c (cs ++ rest)) cs

/-- The character a scanner passes over belongs to a mark of two characters. -/
def Sound (s : Scanner) (text : List Char) : Prop :=
  s.skip = true → text.head? = some '*' ∨ text.head? = some '/'

end Scanner

/-- The line starts behind the line feeds of a text that stands at byte `offset`. -/
def breaks (offset : Nat) : List Char → List LineStart
  | [] => []
  | c :: cs =>
    if c = '\n' then ⟨offset + c.utf8Size, cs⟩ :: breaks (offset + c.utf8Size) cs
    else breaks (offset + c.utf8Size) cs

/-! ## One step

The lemmas name the cases of a step, so that later proofs can choose one without unfolding it. -/

namespace Scanner

variable {s : Scanner} {c : Char} {next cs rest : List Char}

theorem markerName?_eq_none_of_ne (hc : c ≠ '#') : markerName? (c :: cs) = none := by
  refine if_neg fun h ↦ hc ?_
  obtain ⟨more, hmore⟩ := List.isPrefixOf_iff_prefix.1 h
  exact (List.cons.inj hmore).1.symm

theorem name?_eq_none_of_ne (hc : c ≠ '#') : s.name? (c :: cs) = none := by
  rw [name?, markerName?_eq_none_of_ne hc, ite_self]

theorem name?_eq_none_of_region (h : s.region ≠ .code) : s.name? cs = none := by
  have hregion : (s.region == .code) = false := beq_false_of_ne h
  rw [name?, hregion, Bool.and_false]
  rfl

theorem step_of_skip (h : s.skip = true) : s.step c next = ⟨s.region, false, false⟩ := by
  rw [step, if_pos h]

theorem step_of_name {name : String} (h : s.name? (c :: next) = some name) :
    s.step c next = ⟨.line, false, false⟩ := by
  have hskip : s.skip = false := by
    rw [Bool.eq_false_iff]
    intro hskip
    rw [name?, hskip] at h
    cases h
  rw [step, hskip, h]
  rfl

theorem step_of_none (hskip : s.skip = false) (h : s.name? (c :: next) = none) :
    s.step c next = ⟨(s.region.step c next).1, c == '\n', (s.region.step c next).2⟩ := by
  rw [step, hskip, h]
  rfl

/-- What is passed over is the second character of a mark for a comment. -/
theorem skip_regionStep {region : Region} (h : (region.step c next).2 = true) :
    next.head? = some '*' ∨ next.head? = some '/' := by
  unfold Region.step at h
  grind

theorem sound_step (s : Scanner) (c : Char) (next : List Char) : (s.step c next).Sound next := by
  intro h
  cases hskip : s.skip with
  | true =>
    rw [step_of_skip hskip] at h
    cases h
  | false =>
    cases hname : s.name? (c :: next) with
    | some name =>
      rw [step_of_name hname] at h
      cases h
    | none =>
      rw [step_of_none hskip hname] at h
      exact skip_regionStep h

/-- A line starts behind a line feed and nowhere else. -/
theorem atStart_step (h : s.Sound (c :: next)) : (s.step c next).atStart = (c == '\n') := by
  cases hskip : s.skip with
  | true =>
    rw [step_of_skip hskip]
    rcases h hskip with hc | hc <;> cases hc <;> rfl
  | false =>
    cases hname : s.name? (c :: next) with
    | some name =>
      have hc : c = '#' := by
        by_contra hc
        rw [name?_eq_none_of_ne hc] at hname
        cases hname
      rw [step_of_name hname, hc]
      rfl
    | none => rw [step_of_none hskip hname]

end Scanner

/-! ## The scan in these terms -/

variable {s : Scanner} {c : Char} {cs text : List Char}

/-- What a scan has collected behind the character `c`, which stands at byte `offset`. -/
def collect (map : SourceMap) (s : Scanner) (offset : Nat) (c : Char) (cs : List Char) :
    SourceMap where
  lines := if c = '\n' then map.lines.push ⟨offset + c.utf8Size, cs⟩ else map.lines
  files := map.files ++ ((s.name? (c :: cs)).toList.map (⟨·, map.lines.size + 1⟩)).toArray

private theorem collect_of_none {map : SourceMap} {offset : Nat} (h : s.name? (c :: cs) = none) :
    map.collect s offset c cs
      = { map with lines := if c = '\n' then map.lines.push ⟨offset + c.utf8Size, cs⟩
        else map.lines } := by
  rw [collect, h]
  simp

theorem scan_cons (h : s.Sound (c :: cs)) (offset : Nat) (map : SourceMap) :
    scan offset s.region s.atStart s.skip map (c :: cs)
      = scan (offset + c.utf8Size) (s.step c cs).region (s.step c cs).atStart (s.step c cs).skip
          (map.collect s offset c cs) cs := by
  cases hskip : s.skip with
  | true =>
    have hc : c ≠ '\n' := by
      rcases h hskip with hc | hc <;> cases hc <;> decide
    have hname : s.name? (c :: cs) = none := by
      rw [Scanner.name?, hskip]
      rfl
    rw [scan, if_pos rfl, Scanner.step_of_skip hskip, collect_of_none hname, if_neg hc]
  | false =>
    have hmark : (if s.atStart && s.region == .code then markerName? (c :: cs) else none)
        = s.name? (c :: cs) := by
      rw [Scanner.name?, hskip]
      rfl
    rw [scan, if_neg Bool.false_ne_true]
    dsimp only
    rw [hmark]
    cases hname : s.name? (c :: cs) with
    | some name =>
      have hc : c ≠ '\n' := by
        rintro rfl
        rw [Scanner.name?_eq_none_of_ne (by decide)] at hname
        cases hname
      rw [Scanner.step_of_name hname, collect, hname]
      simp [hc]
    | none =>
      rw [Scanner.step_of_none hskip hname, collect_of_none hname]
      dsimp only
      split
      next hc => rw [hc, beq_self_eq_true]
      next hc => rw [beq_false_of_ne hc]

theorem scan_eq (h : s.Sound text) (offset : Nat) (map : SourceMap) :
    scan offset s.region s.atStart s.skip map text
      = ⟨map.lines ++ (breaks offset text).toArray,
          map.files ++ (s.marks [] map.lines.size text).toArray⟩ := by
  induction text generalizing s offset map with
  | nil => simp [scan, breaks, Scanner.marks]
  | cons c cs ih =>
    rw [scan_cons h, ih (s.sound_step c cs), collect, breaks, Scanner.marks, List.append_nil]
    by_cases hc : c = '\n'
    · simp [hc]
    · simp [hc]

theorem ofSource_eq (source : String) :
    ofSource source = ⟨(⟨0, source.toList⟩ :: breaks 0 source.toList).toArray,
      (Scanner.start.marks [] 1 source.toList).toArray⟩ := by
  have hscan := @scan_eq .start source.toList nofun 0 ⟨#[⟨0, source.toList⟩], #[]⟩
  refine hscan.trans ?_
  simp

/-! ## Texts one behind the other -/

namespace Scanner

variable {s : Scanner} {rest : List Char}

theorem run_append (front back : List Char) :
    s.run rest (front ++ back) = (s.run (back ++ rest) front).run rest back := by
  induction front generalizing s with
  | nil => rfl
  | cons c front ih => rw [List.cons_append, run, run, ih, List.append_assoc]

theorem marks_append (lines : Nat) (front back : List Char) :
    s.marks rest lines (front ++ back) = s.marks (back ++ rest) lines front
      ++ (s.run (back ++ rest) front).marks rest (lines + front.count '\n') back := by
  induction front generalizing s lines with
  | nil => rfl
  | cons c front ih =>
    have hcount : [c].count '\n' + front.count '\n' = (c :: front).count '\n' := by
      rw [← List.count_append, List.singleton_append]
    rw [List.cons_append, marks, marks, run, ih, List.append_assoc, List.append_assoc,
      Nat.add_assoc, hcount]

theorem sound_run {front : List Char} (h : s.Sound (front ++ rest)) :
    (s.run rest front).Sound rest := by
  induction front generalizing s with
  | nil => exact h
  | cons c front ih => exact ih (s.sound_step c (front ++ rest))

/-- Whether a line starts behind a text. -/
theorem atStart_run {front : List Char} (h : s.Sound (front ++ rest)) (hne : front ≠ []) :
    (s.run rest front).atStart = (front.getLast? == some '\n') := by
  induction front generalizing s with
  | nil => exact absurd rfl hne
  | cons c front ih =>
    cases front with
    | nil => exact (atStart_step h).trans (by simp)
    | cons d front =>
      rw [run, ih (s.sound_step c (d :: front ++ rest)) (List.cons_ne_nil _ _),
        List.getLast?_cons_cons]

/-! ## Nothing is seen beyond the end of a line

A marker is looked for in the rest of the line, and a mark of two characters in the next one. -/

private theorem isPrefixOf_append_lineEnd {pattern text : List Char} (hpattern : '\n' ∉ pattern)
    (hrest : NoneNext (· != '\n') rest) :
    pattern.isPrefixOf (text ++ rest) = pattern.isPrefixOf text := by
  induction pattern generalizing text with
  | nil => rfl
  | cons c pattern ih =>
    rw [List.mem_cons, not_or] at hpattern
    cases text with
    | cons d text =>
      rw [List.cons_append, List.isPrefixOf_cons_cons, List.isPrefixOf_cons_cons, ih hpattern.2]
    | nil =>
      cases rest with
      | nil => rfl
      | cons d rest =>
        have hd : d = '\n' := by simpa using noneNext_cons.1 hrest
        rw [List.nil_append, List.isPrefixOf_cons_cons, hd, beq_false_of_ne (Ne.symm hpattern.1)]
        rfl

private theorem takeWhile_append_lineEnd (text : List Char) (hrest : NoneNext (· != '\n') rest) :
    (text ++ rest).takeWhile (· != '\n') = text.takeWhile (· != '\n') := by
  have hnil : rest.takeWhile (· != '\n') = [] := by
    cases rest with
    | nil => rfl
    | cons d rest => rw [List.takeWhile_cons, noneNext_cons.1 hrest]; rfl
  rw [List.takeWhile_append]
  split
  next hall =>
    have hprefix := List.takeWhile_prefix (l := text) (· != '\n')
    rw [hnil, List.append_nil, hprefix.eq_of_length hall]
  · rfl

theorem markerName?_append_lineEnd (text : List Char) (hrest : NoneNext (· != '\n') rest) :
    markerName? (text ++ rest) = markerName? text := by
  rw [markerName?, markerName?, isPrefixOf_append_lineEnd (by decide) hrest]
  split
  next hmarker =>
    have hlength := (List.isPrefixOf_iff_prefix.1 hmarker).length_le
    rw [List.drop_append_of_le_length hlength, takeWhile_append_lineEnd _ hrest]
  · rfl

theorem regionStep_append_lineEnd (region : Region) (c : Char) (next : List Char)
    (hrest : NoneNext (· != '\n') rest) :
    region.step c (next ++ rest) = region.step c next := by
  have hhead : ∀ d, d ≠ '\n' → ((next ++ rest).head? = some d ↔ next.head? = some d) := by
    intro d hd
    cases next with
    | cons e next => rfl
    | nil =>
      cases rest with
      | nil => rfl
      | cons e rest =>
        have he : e = '\n' := by simpa using noneNext_cons.1 hrest
        simp [he, Ne.symm hd]
  have hdirective : startsDirective (c :: (next ++ rest)) = startsDirective (c :: next) := by
    rw [startsDirective, startsDirective, ← List.cons_append,
      isPrefixOf_append_lineEnd (by decide) hrest, isPrefixOf_append_lineEnd (by decide) hrest]
  cases region with
  | code => simp only [Region.step, hhead '/' (by decide), hhead '*' (by decide), hdirective]
  | line | text => rfl
  | block => simp only [Region.step, hhead '/' (by decide)]

theorem name?_append_lineEnd (s : Scanner) (text : List Char)
    (hrest : NoneNext (· != '\n') rest) : s.name? (text ++ rest) = s.name? text := by
  rw [name?, name?, markerName?_append_lineEnd text hrest]

theorem step_append_lineEnd (s : Scanner) (c : Char) (next : List Char)
    (hrest : NoneNext (· != '\n') rest) : s.step c (next ++ rest) = s.step c next := by
  rw [step, step, ← List.cons_append, name?_append_lineEnd s _ hrest,
    regionStep_append_lineEnd _ c next hrest]

theorem run_of_lineEnd (s : Scanner) (text : List Char) (hrest : NoneNext (· != '\n') rest) :
    s.run rest text = s.run [] text := by
  induction text generalizing s with
  | nil => rfl
  | cons c text ih => rw [run, run, step_append_lineEnd s c text hrest, List.append_nil, ih]

theorem marks_of_lineEnd (s : Scanner) (lines : Nat) (text : List Char)
    (hrest : NoneNext (· != '\n') rest) : s.marks rest lines text = s.marks [] lines text := by
  induction text generalizing s lines with
  | nil => rfl
  | cons c text ih =>
    rw [marks, marks, step_append_lineEnd s c text hrest, ← List.cons_append,
      name?_append_lineEnd s _ hrest, List.append_nil, ih]

/-! ## Stretches without a marker

A stretch is crossed if the scanner comes out in a known region and has named nothing on the way.
Stretches can be put together. -/

/-- From the region `r` the scan comes over a text, with `rest` behind it, to the region `r'` and
finds no marker on the way. -/
def Crosses (rest : List Char) (r r' : Region) (text : List Char) : Prop :=
  ∀ s : Scanner, s.region = r → s.skip = false →
    (s.run rest text).region = r' ∧ (s.run rest text).skip = false ∧
      ∀ lines, s.marks rest lines text = []

namespace Crosses

variable {r r' r'' : Region} {c : Char} {text front back : List Char}

theorem nil : Crosses rest r r [] :=
  fun _ hregion hskip ↦ ⟨hregion, hskip, fun _ ↦ rfl⟩

theorem cons (hname : r = .code → markerName? (c :: (text ++ rest)) = none)
    (hstep : r.step c (text ++ rest) = (r', false)) (h : Crosses rest r' r'' text) :
    Crosses rest r r'' (c :: text) := by
  intro s hregion hskip
  have hname' : s.name? (c :: (text ++ rest)) = none := by
    by_cases hcode : r = .code
    · rw [name?, hname hcode, ite_self]
    · exact name?_eq_none_of_region (hregion ▸ hcode)
  have hnext := step_of_none hskip hname'
  rw [hregion, hstep] at hnext
  obtain ⟨hrun, hskip', hmarks⟩ := h (s.step c (text ++ rest)) (by rw [hnext]) (by rw [hnext])
  refine ⟨hrun, hskip', fun lines ↦ ?_⟩
  rw [marks, hname', hmarks]
  rfl

/-- A mark of two characters. -/
theorem pair {d : Char} (hc : c ≠ '#') (hstep : r.step c (d :: (text ++ rest)) = (r', true))
    (h : Crosses rest r' r'' text) : Crosses rest r r'' (c :: d :: text) := by
  intro s hregion hskip
  have hname : s.name? (c :: (d :: text ++ rest)) = none := name?_eq_none_of_ne hc
  have hfirst : s.step c (d :: text ++ rest) = ⟨r', c == '\n', true⟩ := by
    rw [step_of_none hskip hname, List.cons_append, hregion, hstep]
  have hname' : (Scanner.mk r' (c == '\n') true).name? (d :: (text ++ rest)) = none := by
    rw [name?]
    rfl
  obtain ⟨hrun, hskip', hmarks⟩ := h ⟨r', false, false⟩ rfl rfl
  rw [run, hfirst, run, step_of_skip rfl]
  refine ⟨hrun, hskip', fun lines ↦ ?_⟩
  rw [marks, hname, hfirst, marks, hname', step_of_skip rfl, hmarks]
  rfl

theorem append (h : Crosses (back ++ rest) r r' front) (h' : Crosses rest r' r'' back) :
    Crosses rest r r'' (front ++ back) := by
  intro s hregion hskip
  obtain ⟨hrun, hsound, hmarks⟩ := h s hregion hskip
  obtain ⟨hrun', hsound', hmarks'⟩ := h' _ hrun hsound
  rw [run_append]
  refine ⟨hrun', hsound', fun lines ↦ ?_⟩
  rw [marks_append, hmarks, hmarks']
  rfl

/-- A stretch of characters none of which means anything. -/
theorem of_forall (hname : r = .code → '#' ∉ text)
    (h : ∀ c ∈ text, ∀ next, r.step c next = (r, false)) : Crosses rest r r text := by
  induction text with
  | nil => exact nil
  | cons c text ih =>
    have hc : r = .code → markerName? (c :: (text ++ rest)) = none := by
      intro hcode
      refine markerName?_eq_none_of_ne ?_
      rintro rfl
      exact hname hcode List.mem_cons_self
    refine cons hc (h c List.mem_cons_self _) ?_
    exact ih (fun hcode hmem ↦ hname hcode (List.mem_cons_of_mem _ hmem))
      fun d hd ↦ h d (List.mem_cons_of_mem _ hd)

/-- Up to its end, a line of which nothing is read stays so. -/
theorem line (h : '\n' ∉ text) : Crosses rest .line .line text := by
  refine of_forall nofun fun c hc next ↦ ?_
  have hne : c ≠ '\n' := fun heq ↦ h (heq ▸ hc)
  simp [Region.step, hne]

end Crosses

/-! ## Marker lines -/

variable {path trailing : List Char}

theorem markerName?_eq_some (hline : '\n' ∉ path ++ trailing)
    (hend : path.getLast?.any isSpace = false) (htrailing : ∀ c ∈ trailing, isSpace c = true)
    (hrest : NoneNext (· != '\n') rest) :
    markerName? (marker ++ (path ++ trailing) ++ rest) = some (String.ofList path) := by
  have hmarker : marker.isPrefixOf (marker ++ (path ++ trailing) ++ rest) = true := by
    rw [List.isPrefixOf_iff_prefix, List.append_assoc]
    exact List.prefix_append _ _
  have hpath : (path ++ trailing ++ rest).takeWhile (· != '\n') = path ++ trailing :=
    takeWhile_append_eq_iff.2 ⟨bne_of_not_mem hline, hrest⟩
  rw [markerName?, if_pos hmarker, List.append_assoc, List.drop_left, hpath,
    Piece.trimEnd_append hend htrailing]

/-- Over a marker line the scan finds its file and nothing else. -/
theorem scan_markerLine (hregion : s.region = .code) (hstart : s.atStart = true)
    (hskip : s.skip = false) (hline : '\n' ∉ path ++ trailing)
    (hend : path.getLast?.any isSpace = false) (htrailing : ∀ c ∈ trailing, isSpace c = true)
    (hrest : NoneNext (· != '\n') rest) :
    let text := marker ++ (path ++ trailing)
    (s.run rest text).region = .line ∧ (s.run rest text).skip = false ∧
      ∀ lines, s.marks rest lines text = [⟨String.ofList path, lines + 1⟩] := by
  have hname : s.name? (marker ++ (path ++ trailing) ++ rest) = some (String.ofList path) := by
    rw [name?, hregion, hstart, hskip, markerName?_eq_some hline hend htrailing hrest]
    rfl
  have hfree : '\n' ∉ marker ++ (path ++ trailing) := by
    rw [List.mem_append, not_or]
    exact ⟨by decide, hline⟩
  obtain ⟨c, more, hmore⟩ : ∃ c more, marker ++ (path ++ trailing) = c :: more := ⟨_, _, rfl⟩
  rw [hmore, List.mem_cons, not_or] at hfree
  rw [hmore, List.cons_append] at hname
  dsimp only
  obtain ⟨hregion', hskip', hmarks⟩ := @Crosses.line rest more hfree.2 ⟨.line, false, false⟩ rfl rfl
  rw [hmore, run, step_of_name hname]
  refine ⟨hregion', hskip', fun lines ↦ ?_⟩
  rw [marks, hname, step_of_name hname, hmarks]
  rfl

end Scanner

end SourceMap

end CharacterScript
