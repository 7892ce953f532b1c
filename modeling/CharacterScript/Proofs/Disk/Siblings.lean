import CharacterScript.Proofs.Disk.Changes
import Mathlib.Data.List.DropRight

/-!
# The last step of a path

A path that leads to a file takes its last step under the name of the file, in some directory
(`FileTree.WellFormed.leads_of_read`). The path with something added to its file name leads to the
same directory (`FileTree.Leads.siblings`), although its text may be another one: the parent of a
path is taken without slashes and dots that mean nothing.

## Trees with the same directories

A tree that has the same directories as before takes all paths to where they led before, up to their
last step, whatever became of the files (`FileTree.Leads.kept`).

## Why texts matter

A file is asked for by its path, and its draft by a path that is made from that as a text. That
both lead to the same directory has to be proved of texts: how a path is cut, where its parent
ends, and what a name put behind it is cut into. This is the one place where the forms of paths,
with and without slashes at the end and dots in between, have to be gone through.
-/

namespace CharacterScript

namespace Path

/-! ## Spelling -/

/-- Pieces, each with a slash behind it, and a last one. -/
def spell (ps : List (List Char)) (last : List Char) : List Char :=
  ps.flatMap (· ++ ['/']) ++ last

theorem spell_cons (q : List Char) (ps : List (List Char)) (last : List Char) :
    spell (q :: ps) last = q ++ '/' :: spell ps last := by
  simp [spell]

theorem pieces_spell {ps : List (List Char)} {last : List Char} (hps : ∀ q ∈ ps, '/' ∉ q)
    (hlast : '/' ∉ last) : pieces (spell ps last) = ps ++ [last] := by
  induction ps with
  | nil => exact pieces_of_noSlash hlast
  | cons q ps ih =>
    rw [spell_cons, pieces_append_slash (hps q List.mem_cons_self),
      ih fun q' hq' ↦ hps q' (List.mem_cons_of_mem _ hq')]
    rfl

/-- Every text is spelled by its pieces. -/
theorem exists_spell (cs : List Char) :
    ∃ ps last, (∀ q ∈ ps, '/' ∉ q) ∧ '/' ∉ last ∧ cs = spell ps last := by
  induction cs with
  | nil => exact ⟨[], [], by simp, by simp, rfl⟩
  | cons c cs ih =>
    obtain ⟨ps, last, hps, hlast, rfl⟩ := ih
    by_cases hc : c = '/'
    · refine ⟨[] :: ps, last, ?_, hlast, ?_⟩
      · simpa using hps
      · rw [hc, spell_cons, List.nil_append]
    · -- the character goes to the first piece
      have hfirst {q : List Char} (hq : '/' ∉ q) : '/' ∉ c :: q := by
        simpa [Ne.symm hc] using hq
      cases ps with
      | nil => exact ⟨[], c :: last, by simp, hfirst hlast, rfl⟩
      | cons q ps =>
        refine ⟨(c :: q) :: ps, last, ?_, hlast, ?_⟩
        · obtain ⟨hq, hps⟩ := List.forall_mem_cons.1 hps
          exact List.forall_mem_cons.2 ⟨hfirst hq, hps⟩
        · rw [spell_cons, spell_cons, List.cons_append]

theorem intercalate_eq_spell {ps : List (List Char)} (h : ps ≠ []) (last : List Char) :
    ['/'].intercalate ps ++ '/' :: last = spell ps last := by
  rw [← FileTree.intercalate_concat h]
  induction ps with
  | nil => exact absurd rfl h
  | cons q ps ih =>
    rw [spell_cons, List.cons_append]
    cases ps with
    | nil => simp [spell]
    | cons q' ps => rw [List.cons_append, List.intercalate_cons_cons, ← List.cons_append,
        ih (List.cons_ne_nil _ _), List.append_assoc, List.singleton_append]

/-- A text is absolute if its first piece is empty. -/
theorem head?_spell {q : List Char} (h : '/' ∉ q) (ps : List (List Char)) (last : List Char) :
    (spell (q :: ps) last).head? = some '/' ↔ q = [] := by
  rw [spell_cons]
  cases q with
  | nil => simp
  | cons c q =>
    have hc : c ≠ '/' := fun heq ↦ h (heq ▸ List.mem_cons_self)
    simpa using hc

/-! ## Another file name

The parent of a path is what stands in front of its last name. It is cut off as text, so the
directory it leads to is the one that the pieces in front of the name lead to. -/

/-- The pieces of a path that are kept in its parent, if these pieces come before the last. -/
def ahead : List (List Char) → List (List Char)
  | [] => []
  | q :: ps => q :: ps.rdropWhile (!isNamed ·)

/-- What is left out are pieces that mean nothing. -/
theorem exists_ahead_append (ps : List (List Char)) :
    ∃ skipped, ps = ahead ps ++ skipped ∧ ∀ q ∈ skipped, isNamed q = false := by
  cases ps with
  | nil => exact ⟨[], rfl, by simp⟩
  | cons q ps =>
    refine ⟨ps.rtakeWhile (!isNamed ·), ?_, fun q hq ↦ ?_⟩
    · rw [ahead, List.cons_append, List.rdropWhile_append_rtakeWhile]
    · simpa using List.mem_rtakeWhile_imp hq

theorem head?_spell_ahead {ps : List (List Char)} {last last' : List Char}
    (hps : ∀ q ∈ ps, '/' ∉ q) (hlast : '/' ∉ last) (hlast' : '/' ∉ last') :
    (spell (ahead ps) last').head? = some '/' ↔ (spell ps last).head? = some '/' := by
  cases ps with
  | nil =>
    exact iff_of_false (fun h ↦ hlast' (List.mem_of_head? h)) fun h ↦ hlast (List.mem_of_head? h)
  | cons q ps =>
    have hq := hps q List.mem_cons_self
    rw [ahead, head?_spell hq, head?_spell hq]

theorem parts_of_cut {p : Path} {head last : List Char} {ps : List (List Char)}
    (h : p.cut = (head, ps ++ [last])) (hnamed : isNamed last = true) (hdots : last ≠ ['.', '.']) :
    p.fileName? = some (String.ofList last) ∧
      p.parent? = some (glue head (ps.rdropWhile (!isNamed ·))) := by
  have hpart : Part.ofPiece last = .named (String.ofList last) := by
    rw [Part.ofPiece, if_neg hdots]
  constructor
  · have hlast : p.parts.getLast? = some (.named (String.ofList last)) := by
      rw [parts, h]
      simp only [List.filter_append, List.filter_cons_of_pos hnamed, List.filter_nil,
        List.map_append, List.map_singleton, hpart]
      split
      · rw [← List.cons_append, List.getLast?_concat]
      · rw [← List.cons_append, List.getLast?_concat]
      · rw [List.getLast?_concat]
    rw [fileName?, hlast]
  · rw [parent?, h]
    simp [hnamed, List.rdropWhile]

theorem last_ahead_ne_nil {ps front : List (List Char)} {b : List Char}
    (h : ahead ps = front ++ [b]) (hne : ahead ps ≠ [[]]) : b ≠ [] := by
  rintro rfl
  cases ps with
  | nil => exact absurd h.symm (by simp [ahead])
  | cons q ps =>
    rw [ahead] at h hne
    by_cases hrest : ps.rdropWhile (!isNamed ·) = []
    · rw [hrest] at h hne
      have hq : q = [] := by simpa using congrArg List.getLast? h
      exact hne (by rw [hq])
    · have hlast := List.rdropWhile_last_not _ ps hrest
      have heq : (ps.rdropWhile (!isNamed ·)).getLast? = some [] := by
        have hall := congrArg List.getLast? h
        rwa [List.getLast?_concat, List.getLast?_cons_of_ne_nil hrest] at hall
      rw [List.getLast?_eq_some_getLast hrest] at heq
      rw [Option.some.inj heq] at hlast
      exact hlast rfl

/-- A name is put behind the pieces of a parent. -/
theorem toList_join {p : Path} {ps : List (List Char)} {name : String} (hps : ∀ q ∈ ps, '/' ∉ q)
    (hname : '/' ∉ name.toList)
    (h : p.text.toList = if ahead ps = [[]] then ['/'] else ['/'].intercalate (ahead ps)) :
    (p.join name).text.toList = spell (ahead ps) name.toList := by
  have hrelative : ¬(Path.mk name).isAbsolute = true := by
    intro habs
    rw [isAbsolute, beq_iff_eq] at habs
    exact hname (List.mem_of_head? habs)
  rw [join, if_neg hrelative]
  by_cases hroot : ahead ps = [[]]
  · rw [if_pos hroot] at h
    rw [if_pos (by simp [h]), hroot, String.toList_append, h]
    rfl
  rw [if_neg hroot] at h
  obtain hnil | ⟨front, b, hlast⟩ := List.eq_nil_or_concat' (ahead ps)
  · have hempty : p.text = "" := String.toList_eq_nil_iff.1 (by rw [h, hnil]; rfl)
    rw [if_pos (by simp [hempty]), hempty, hnil]
    rfl
  -- the last piece is neither empty nor does it end with a slash, so one is put in
  have hb : b ≠ [] := last_ahead_ne_nil hlast hroot
  have hslash : '/' ∉ b := by
    obtain ⟨skipped, hsplit, -⟩ := exists_ahead_append ps
    exact hps b (by rw [hsplit, hlast]; simp)
  have hend : p.text.toList.getLast? = b.getLast? := by
    rw [h, hlast]
    by_cases hfront : front = []
    · simp [hfront]
    · rw [FileTree.intercalate_concat hfront, List.getLast?_append, List.getLast?_cons_of_ne_nil hb,
        List.getLast?_eq_some_getLast hb, Option.some_or]
  have hkeep : ¬(p.text.isEmpty || p.text.toList.getLast? == some '/') = true := by
    rw [hend, List.getLast?_eq_some_getLast hb]
    simp only [Bool.or_eq_true, beq_iff_eq, not_or]
    constructor
    · intro hempty
      rw [String.isEmpty_iff] at hempty
      rw [hempty, List.getLast?_eq_some_getLast hb] at hend
      exact absurd hend.symm (by simp)
    · intro hlastSlash
      exact hslash (Option.some.inj hlastSlash ▸ List.getLast_mem hb)
  rw [if_neg hkeep, String.toList_append, String.toList_append, h]
  show _ ++ ['/'] ++ _ = _
  rw [List.append_assoc, List.singleton_append, intercalate_eq_spell (by simp [hlast])]

theorem rdropWhile_cons (q : List Char) (ps : List (List Char)) :
    (q :: ps).rdropWhile (!isNamed ·)
      = if ps.rdropWhile (!isNamed ·) = [] ∧ isNamed q = false then []
        else q :: ps.rdropWhile (!isNamed ·) := by
  rw [List.rdropWhile, List.rdropWhile, List.reverse_cons, List.dropWhile_append]
  cases hrest : ps.reverse.dropWhile (!isNamed ·) with
  | nil => cases hq : isNamed q <;> simp [hq]
  | cons b rest => simp

/-! ### Where the head of a path ends -/

private theorem cut_of_noSlash {p : Path} (h : '/' ∉ p.text.toList)
    (hnamed : isNamed p.text.toList = true) : p.cut = ([], [p.text.toList]) := by
  rw [cut]
  split
  next rest heq => exact absurd (heq ▸ List.mem_cons_self) h
  next heq => exact absurd (heq ▸ hnamed) (by decide)
  next rest heq => exact absurd (heq ▸ List.mem_cons_of_mem _ List.mem_cons_self) h
  next => rw [pieces_of_noSlash h]

private theorem cut_of_slash {p : Path} {ps : List (List Char)} {last : List Char}
    (hps : ∀ q ∈ ps, '/' ∉ q) (hlast : '/' ∉ last) (h : p.text.toList = '/' :: spell ps last) :
    p.cut = (['/'], ps ++ [last]) := by
  rw [cut, h]
  exact congrArg (['/'], ·) (pieces_spell hps hlast)

private theorem cut_of_dot {p : Path} {ps : List (List Char)} {last : List Char}
    (hps : ∀ q ∈ ps, '/' ∉ q) (hlast : '/' ∉ last)
    (h : p.text.toList = '.' :: '/' :: spell ps last) : p.cut = (['.'], ([] :: ps) ++ [last]) := by
  rw [cut, h]
  refine congrArg (['.'], ·) ?_
  rw [List.cons_append, ← pieces_spell hps hlast]
  exact @pieces_append_slash [] List.not_mem_nil _

private theorem cut_of_isNamed {p : Path} {q : List Char} {ps : List (List Char)} {last : List Char}
    (hps : ∀ r ∈ q :: ps, '/' ∉ r) (hlast : '/' ∉ last) (hempty : q ≠ []) (hdot : q ≠ ['.'])
    (h : p.text.toList = spell (q :: ps) last) : p.cut = ([], (q :: ps) ++ [last]) := by
  have hq := hps q List.mem_cons_self
  rw [cut, h]
  split
  next rest heq =>
    -- a slash at the start would be the end of an empty piece
    exact absurd ((head?_spell hq ps last).1 (by rw [heq]; rfl)) hempty
  next heq =>
    rw [spell_cons] at heq
    simp [List.append_eq_singleton_iff, hempty] at heq
  next rest heq =>
    rw [spell_cons] at heq
    obtain _ | ⟨c, q⟩ := q
    · exact absurd rfl hempty
    obtain ⟨rfl, htail⟩ := List.cons.inj heq
    obtain _ | ⟨d, q⟩ := q
    · exact absurd rfl hdot
    · obtain ⟨rfl, -⟩ := List.cons.inj htail
      exact absurd (List.mem_cons_of_mem _ List.mem_cons_self) hq
  next => rw [pieces_spell hps hlast]

/-- The parent of a path that ends with a name. -/
theorem exists_parent {p : Path} {ps : List (List Char)} {last : List Char}
    (hps : ∀ q ∈ ps, '/' ∉ q) (hlast : '/' ∉ last) (hnamed : isNamed last = true)
    (hdots : last ≠ ['.', '.']) (h : p.text.toList = spell ps last) :
    p.fileName? = some (String.ofList last) ∧ ∃ parent, p.parent? = some parent ∧
      parent.text.toList = if ahead ps = [[]] then ['/'] else ['/'].intercalate (ahead ps) := by
  cases ps with
  | nil =>
    have htext : p.text.toList = last := h
    have hcut : p.cut = ([], [] ++ [last]) := by
      rw [cut_of_noSlash (htext ▸ hlast) (htext ▸ hnamed), htext, List.nil_append]
    obtain ⟨hfile, hparent⟩ := parts_of_cut hcut hnamed hdots
    exact ⟨hfile, _, hparent, by simp [glue, ahead]⟩
  | cons q ps =>
    obtain ⟨-, hrest⟩ := List.forall_mem_cons.1 hps
    by_cases hempty : q = []
    · rw [spell_cons, hempty, List.nil_append] at h
      have hcut := cut_of_slash hrest hlast h
      obtain ⟨hfile, hparent⟩ := parts_of_cut hcut hnamed hdots
      refine ⟨hfile, _, hparent, ?_⟩
      rw [glue, String.toList_ofList, ahead, hempty]
      cases ps.rdropWhile (!isNamed ·) with
      | nil => simp
      | cons b rest => simp [List.intercalate_cons_cons]
    by_cases hdot : q = ['.']
    · rw [spell_cons, hdot, List.singleton_append] at h
      have hcut := cut_of_dot hrest hlast h
      obtain ⟨hfile, hparent⟩ := parts_of_cut hcut hnamed hdots
      refine ⟨hfile, _, hparent, ?_⟩
      rw [glue, String.toList_ofList, ahead, hdot, rdropWhile_cons]
      cases ps.rdropWhile (!isNamed ·) with
      | nil => simp [isNamed]
      | cons b rest => simp [List.intercalate_cons_cons]
    · have hcut := cut_of_isNamed hps hlast hempty hdot h
      obtain ⟨hfile, hparent⟩ := parts_of_cut hcut hnamed hdots
      have hqnamed : isNamed q = true := by simp [isNamed, hempty, hdot]
      refine ⟨hfile, _, hparent, ?_⟩
      rw [glue, String.toList_ofList, ahead, rdropWhile_cons, hqnamed]
      simp [hempty]

/-- Another file name is put behind the pieces that the parent keeps. -/
theorem toList_withFileName {p : Path} {ps : List (List Char)} {last : List Char} {name : String}
    (hps : ∀ q ∈ ps, '/' ∉ q) (hlast : '/' ∉ last) (hnamed : isNamed last = true)
    (hdots : last ≠ ['.', '.']) (h : p.text.toList = spell ps last) (hname : '/' ∉ name.toList) :
    (p.withFileName name).text.toList = spell (ahead ps) name.toList := by
  obtain ⟨hfile, parent, hparent, htext⟩ := exists_parent hps hlast hnamed hdots h
  rw [withFileName, hfile, hparent]
  exact toList_join hps hname htext

end Path

namespace FileTree

variable {t t' : FileTree}

/-! ## Walking -/

/-- One piece leads from a place to another. -/
inductive Steps (t : FileTree) (spot : Spot) : String → Spot → Prop
  | stay {piece : String} (h : piece = "" ∨ piece = ".") : Steps t spot piece spot
  | up : Steps t spot ".." spot.dropLast
  | down {piece : String} (hstay : ¬(piece = "" ∨ piece = ".")) (hup : piece ≠ "..")
      (hsize : piece.utf8ByteSize ≤ maxName) (hthere : t.Has (spot ++ [piece])) :
      Steps t spot piece (spot ++ [piece])

theorem walk_cons_of_steps {spot next : Spot} {piece : String} (hdir : t.isDirectoryAt spot = true)
    (h : t.Steps spot piece next) (rest : List String) :
    t.walk spot (piece :: rest) = t.walk next rest := by
  rw [walk, if_neg (by simp [hdir])]
  cases h with
  | stay hstay => rw [if_pos (by simpa using hstay)]
  | up => rw [if_neg (by decide), if_pos rfl]
  | down hstay hup hsize hthere =>
    rw [if_neg (by simpa using hstay), if_neg hup, if_neg (Nat.not_lt.2 hsize),
      if_pos (show (t.node? _).isSome = true from hthere)]

theorem walk_cons_eq_ok_iff {spot spot' : Spot} {piece : String} {rest : List String} :
    t.walk spot (piece :: rest) = .ok spot' ↔
      t.isDirectoryAt spot = true ∧ ∃ next, t.Steps spot piece next ∧
        t.walk next rest = .ok spot' := by
  constructor
  · intro h
    rw [walk] at h
    split at h
    · cases h
    next hdir =>
    refine ⟨by simpa using hdir, ?_⟩
    split at h
    next hstay => exact ⟨spot, .stay (by simpa using hstay), h⟩
    next hstay =>
    split at h
    next hup => exact ⟨_, hup ▸ .up, h⟩
    next hup =>
    split at h
    · cases h
    next hsize =>
    split at h
    next hthere => exact ⟨_, .down (by simpa using hstay) hup (Nat.not_lt.1 hsize) hthere, h⟩
    · cases h
  · rintro ⟨hdir, next, hstep, h⟩
    rwa [walk_cons_of_steps hdir hstep]

/-- What follows a walk goes on from where it ends. -/
theorem walk_append_of_eq_ok {spot s : Spot} {before : List String} (h : t.walk spot before = .ok s)
    (after : List String) : t.walk spot (before ++ after) = t.walk s after := by
  induction before generalizing spot with
  | nil =>
    cases h
    rfl
  | cons piece before ih =>
    obtain ⟨hdir, next, hstep, hnext⟩ := walk_cons_eq_ok_iff.1 h
    rw [List.cons_append, walk_cons_of_steps hdir hstep, ih hnext]

theorem walk_append_eq_ok_iff {spot spot' : Spot} {before after : List String} :
    t.walk spot (before ++ after) = .ok spot' ↔
      ∃ s, t.walk spot before = .ok s ∧ t.walk s after = .ok spot' := by
  induction before generalizing spot with
  | nil => simp [walk]
  | cons piece before ih =>
    rw [List.cons_append, walk_cons_eq_ok_iff]
    simp only [walk_cons_eq_ok_iff, ih]
    constructor
    · rintro ⟨hdir, next, hstep, s, hs, hafter⟩
      exact ⟨s, ⟨hdir, next, hstep, hs⟩, hafter⟩
    · rintro ⟨s, ⟨hdir, next, hstep, hs⟩, hafter⟩
      exact ⟨hdir, next, hstep, s, hs, hafter⟩

/-- Pieces that mean nothing lead nowhere. -/
theorem eq_of_walk_skipped {spot spot' : Spot} {skipped : List String}
    (h : ∀ q ∈ skipped, q = "" ∨ q = ".") (hwalk : t.walk spot skipped = .ok spot') :
    spot' = spot := by
  induction skipped with
  | nil =>
    cases hwalk
    rfl
  | cons q skipped ih =>
    obtain ⟨hq, hrest⟩ := List.forall_mem_cons.1 h
    obtain ⟨-, next, hstep, hnext⟩ := walk_cons_eq_ok_iff.1 hwalk
    cases hstep with
    | stay => exact ih hrest hnext
    | up => exact absurd hq (by decide)
    | down hstay => exact absurd hq hstay

/-- A walk that ends in a directory starts in one. -/
theorem isDirectoryAt_of_walk {spot dir : Spot} {pieces : List String}
    (h : t.walk spot pieces = .ok dir) (hdir : t.isDirectoryAt dir = true) :
    t.isDirectoryAt spot = true := by
  cases pieces with
  | nil =>
    cases h
    exact hdir
  | cons piece pieces => exact (walk_cons_eq_ok_iff.1 h).1

/-- A walk to a directory passes through directories only, so it is the same in a tree that has
these directories. -/
theorem walk_kept (hdirs : ∀ s, t.isDirectoryAt s = true → t'.isDirectoryAt s = true)
    {spot dir : Spot} {pieces : List String} (h : t.walk spot pieces = .ok dir)
    (hdir : t.isDirectoryAt dir = true) : t'.walk spot pieces = .ok dir := by
  induction pieces generalizing spot with
  | nil =>
    cases h
    rfl
  | cons piece pieces ih =>
    obtain ⟨hspot, next, hstep, hnext⟩ := walk_cons_eq_ok_iff.1 h
    have hstep' : t'.Steps spot piece next := by
      cases hstep with
      | stay hstay => exact .stay hstay
      | up => exact .up
      | down hstay hup hsize _ =>
        exact .down hstay hup hsize
          (has_of_isDirectoryAt (hdirs _ (isDirectoryAt_of_walk hnext hdir)))
    exact walk_cons_eq_ok_iff.2 ⟨hdirs spot hspot, next, hstep', ih hnext⟩

/-! ## Last steps

With the directory and the name known, each question about a path comes down to one about an
entry. -/

/-- The path takes its last step in a directory, under a name. What is there is left open. -/
structure Leads (t : FileTree) (p : Path) (dir : Spot) (name : String) : Prop where
  /-- The last piece is a name. -/
  isName : IsName name
  /-- The step is taken in a directory. -/
  isDirectory : t.isDirectoryAt dir = true
  /-- All pieces but the last lead there. -/
  way : ∃ before, pieces p = .ok (before ++ [name]) ∧ t.walk (t.startOf p) before = .ok dir

theorem WellFormed.isDirectoryAt_startOf (ht : t.WellFormed) (p : Path) :
    t.isDirectoryAt (t.startOf p) = true := by
  rw [startOf]
  split
  · rfl
  · exact ht.here

theorem has_of_file {spot : Spot} {data : ByteArray} {modified : Int}
    (h : t.node? spot = some (.file data modified)) : t.Has spot := by
  rw [Has, h]
  rfl

theorem isDirectoryAt_of_file {spot : Spot} {data : ByteArray} {modified : Int}
    (h : t.node? spot = some (.file data modified)) : t.isDirectoryAt spot = false := by
  rw [isDirectoryAt, h]

/-- A path that leads to a file takes its last step under the name of the file. -/
theorem WellFormed.leads_of_read (ht : t.WellFormed) {p : Path} {data : ByteArray}
    (h : t.read p = .ok data) : ∃ dir name modified, t.Leads p dir name ∧
      t.node? (dir ++ [name]) = some (.file data modified) := by
  obtain ⟨spot, hfind, hnode⟩ := Running.exceptBind_eq_ok.1 h
  obtain ⟨all, hall, hwalk⟩ := Running.exceptBind_eq_ok.1 hfind
  split at hnode
  next data' modified hfile =>
    cases hnode
    have hnot : ¬t.isDirectoryAt spot = true := by simp [isDirectoryAt_of_file hfile]
    obtain rfl | ⟨before, name, rfl⟩ := List.eq_nil_or_concat' all
    · cases hwalk
      exact absurd (ht.isDirectoryAt_startOf p) hnot
    obtain ⟨dir, hbefore, hlast⟩ := walk_append_eq_ok_iff.1 hwalk
    obtain ⟨hdir, next, hstep, hnext⟩ := walk_cons_eq_ok_iff.1 hlast
    cases hnext
    -- a last step that stays or goes up would end in a directory
    cases hstep with
    | stay => exact absurd hdir hnot
    | up =>
      by_cases hne : dir = []
      · exact absurd (by rw [hne]; rfl) hnot
      · exact absurd (ht.isDirectoryAt_dropLast (has_of_isDirectoryAt hdir) hne) hnot
    | down =>
      have hname := ht.isName (has_of_file hfile) List.mem_concat_self
      exact ⟨dir, name, modified, ⟨hname, hdir, before, hall, hbefore⟩, hfile⟩
  next => cases hnode
  next => cases hnode

theorem pieces_eq_ok_iff {p : Path} {all : List String} :
    pieces p = .ok all ↔ allPieces p = .ok all ∧ Fits p := by
  by_cases hfits : Fits p
  · rw [pieces_of_fits hfits, and_iff_left hfits]
  · constructor
    · intro h
      obtain ⟨all', -, h⟩ := Running.exceptBind_eq_ok.1 h
      rw [if_pos (Nat.not_le.1 hfits)] at h
      cases h
    · exact fun h ↦ absurd h.2 hfits

/-- What can be read under a name in a directory is a file of the directory. -/
theorem WellFormed.file_of_read (ht : t.WellFormed) {spot : Spot} (h : t.Has spot) {name : String}
    (hname : IsName name) {data : ByteArray} (hread : t.read (pathOf (spot ++ [name])) = .ok data) :
    ∃ modified, t.node? (spot ++ [name]) = some (.file data modified) := by
  obtain ⟨dir, last, modified, hleads, hfile⟩ := ht.leads_of_read hread
  obtain ⟨before, hpieces, hwalk⟩ := hleads.way
  have hnames : ∀ n ∈ spot ++ [name], IsName n := by
    intro n hn
    obtain hn | hn := List.mem_append.1 hn
    · exact ht.isName h hn
    · rwa [List.mem_singleton.1 hn]
  have hall := (pieces_eq_ok_iff.1 hpieces).1
  rw [allPieces_of_names hnames, if_neg (by simp), ← List.cons_append, Except.ok.injEq] at hall
  obtain ⟨rfl, hlast⟩ := List.append_inj' hall rfl
  obtain rfl : name = last := by simpa using hlast
  -- the names of the directory lead to it
  have hthere : t.walk [] spot = .ok spot := ht.walk_names [] h
  have hdir : t.walk [] ("" :: spot) = t.walk [] spot :=
    walk_cons_of_steps rfl (.stay (.inl rfl)) spot
  rw [startOf, if_pos (isAbsolute_pathOf _), hdir, hthere] at hwalk
  cases hwalk
  exact ⟨modified, hfile⟩

theorem allPieces_eq_ok_iff {p : Path} {all : List String} :
    allPieces p = .ok all ↔ p.text ≠ "" ∧ '\x00' ∉ p.text.toList ∧
      (Path.pieces p.text.toList).map String.ofList = all := by
  rw [allPieces]
  split
  next hempty => simp [String.isEmpty_iff.1 hempty]
  next hempty =>
    have hne : p.text ≠ "" := fun heq ↦ hempty (String.isEmpty_iff.2 heq)
    split
    next hnul => simp [List.contains_iff_mem.1 hnul]
    next hnul =>
      have hnul' : '\x00' ∉ p.text.toList := fun hmem ↦ hnul (List.contains_iff_mem.2 hmem)
      simp [hne, hnul']

/-- The last step under a piece that is not empty. -/
theorem lastStep_of_pieces {p : Path} {before : List String} {piece : String} {dir : Spot}
    (hpieces : pieces p = .ok (before ++ [piece])) (hne : piece ≠ "")
    (hwalk : t.walk (t.startOf p) before = .ok dir) (hdir : t.isDirectoryAt dir = true) :
    t.lastStep p
      = if maxName < piece.utf8ByteSize then .error .nameTooLong else .ok ⟨dir, piece, false⟩ := by
  have hsteps : ((before ++ [piece]).reverse.dropWhile (· = "")).reverse = before ++ [piece] := by
    simp [hne]
  rw [lastStep, hpieces]
  show (t.walk (t.startOf p) _ >>= _) = _
  rw [hsteps, List.dropLast_concat, hwalk]
  show (if !t.isDirectoryAt dir then _ else _) = _
  rw [if_neg (by simp [hdir]), List.getLast?_concat, Option.getD_some]
  split
  · rfl
  · rw [decide_eq_false (lt_irrefl _)]
    rfl

namespace Leads

variable {p : Path} {dir : Spot} {name : String}

/-- The same directories take a path to where it led before. -/
theorem kept (h : t.Leads p dir name)
    (hdirs : ∀ s, t.isDirectoryAt s = true → t'.isDirectoryAt s = true) (hhere : t'.here = t.here) :
    t'.Leads p dir name := by
  obtain ⟨before, hpieces, hwalk⟩ := h.way
  have hstart : t'.startOf p = t.startOf p := by rw [startOf, startOf, hhere]
  exact ⟨h.isName, hdirs dir h.isDirectory, before, hpieces,
    hstart ▸ walk_kept hdirs hwalk h.isDirectory⟩

theorem lastStep (h : t.Leads p dir name) : t.lastStep p = .ok ⟨dir, name, false⟩ := by
  obtain ⟨before, hpieces, hwalk⟩ := h.way
  rw [lastStep_of_pieces hpieces h.isName.1 hwalk h.isDirectory,
    if_neg (Nat.not_lt.2 h.isName.2.2.2.2.2)]

theorem lastStep_isName (h : t.Leads p dir name) : (LastStep.mk dir name false).isName = true := by
  simp [LastStep.isName, h.isName.1, h.isName.2.1, h.isName.2.2.1]

private theorem find (h : t.Leads p dir name) : t.find p
    = if (t.node? (dir ++ [name])).isSome = true then .ok (dir ++ [name])
      else .error .notFound := by
  obtain ⟨before, hpieces, hwalk⟩ := h.way
  obtain ⟨hempty, hdot, hdots, -, -, hsize⟩ := h.isName
  rw [FileTree.find, hpieces]
  show t.walk (t.startOf p) (before ++ [name]) = _
  rw [walk_append_of_eq_ok hwalk, walk, if_neg (by simp [h.isDirectory]),
    if_neg (by simp [hempty, hdot]), if_neg hdots, if_neg (Nat.not_lt.2 hsize)]
  rfl

theorem find_of_some (h : t.Leads p dir name) {node : Node}
    (hnode : t.node? (dir ++ [name]) = some node) : t.find p = .ok (dir ++ [name]) := by
  rw [h.find, hnode]
  rfl

theorem find_of_none (h : t.Leads p dir name) (hnode : t.node? (dir ++ [name]) = none) :
    t.find p = .error .notFound := by
  rw [h.find, hnode]
  rfl

theorem read_of_file (h : t.Leads p dir name) {data : ByteArray} {modified : Int}
    (hnode : t.node? (dir ++ [name]) = some (.file data modified)) : t.read p = .ok data :=
  Running.exceptBind_eq_ok.2 ⟨_, h.find_of_some hnode, by rw [hnode]; rfl⟩

theorem read_of_none (h : t.Leads p dir name) (hnode : t.node? (dir ++ [name]) = none) :
    t.read p = .error .notFound := by
  rw [FileTree.read, h.find_of_none hnode]
  rfl

theorem stat_of_file (h : t.Leads p dir name) {data : ByteArray} {modified : Int}
    (hnode : t.node? (dir ++ [name]) = some (.file data modified)) :
    t.stat p = .ok ⟨.file, modified⟩ :=
  Running.exceptBind_eq_ok.2 ⟨_, h.find_of_some hnode, by rw [hnode]; rfl⟩

theorem stat_of_none (h : t.Leads p dir name) (hnode : t.node? (dir ++ [name]) = none) :
    t.stat p = .error .notFound := by
  rw [FileTree.stat, h.find_of_none hnode]
  rfl

theorem exists_stat_directory_iff (h : t.Leads p dir name) :
    (∃ modified, t.stat p = .ok ⟨.directory, modified⟩) ↔
      t.isDirectoryAt (dir ++ [name]) = true := by
  rw [isDirectoryAt]
  cases hnode : t.node? (dir ++ [name]) with
  | none => simp [h.stat_of_none hnode]
  | some node =>
    cases node with
    | file data modified => simp [h.stat_of_file hnode]
    | directory modified =>
      have hstat : t.stat p = .ok ⟨.directory, modified⟩ :=
        Running.exceptBind_eq_ok.2 ⟨_, h.find_of_some hnode, by rw [hnode]; rfl⟩
      simp [hstat]

theorem create (h : t.Leads p dir name) : t.create p
    = if t.isDirectoryAt (dir ++ [name]) = true then .error .isDirectory
      else .ok (t.put (dir ++ [name]) .empty) := by
  rw [FileTree.create, h.lastStep]
  show (if (false || !(LastStep.mk dir name false).isName || t.isDirectoryAt (dir ++ [name])) = true
    then _ else _) = _
  rw [h.lastStep_isName]
  cases t.isDirectoryAt (dir ++ [name]) <;> rfl

theorem write (h : t.Leads p dir name) {before : ByteArray} {modified : Int}
    (hnode : t.node? (dir ++ [name]) = some (.file before modified)) (data : ByteArray) :
    t.write p data = .ok (t.put (dir ++ [name]) data) :=
  Running.exceptBind_eq_ok.2 ⟨_, h.find_of_some hnode, by rw [hnode]; rfl⟩

/-- A file is renamed within its directory, unless a directory has the new name. -/
theorem rename (h : t.Leads p dir name) {q : Path} {other : String} (hq : t.Leads q dir other)
    (hne : name ≠ other) {data : ByteArray} {modified : Int}
    (hnode : t.node? (dir ++ [name]) = some (.file data modified)) :
    t.rename p q = if t.isDirectoryAt (dir ++ [other]) = true then .error .isDirectory
      else .ok (t.move (dir ++ [name]) (dir ++ [other])) := by
  have hsteps : (!(LastStep.mk dir name false).isName || !(LastStep.mk dir other false).isName)
      = false := by
    rw [h.lastStep_isName, hq.lastStep_isName]
    rfl
  -- the two places are stated as the last steps have them
  have hspots : (LastStep.mk dir name false).spot ≠ (LastStep.mk dir other false).spot := by
    simpa [LastStep.spot] using hne
  have hbelow {a b : String} (hab : a ≠ b) :
      ¬(LastStep.mk dir a false).spot.isPrefixOf (LastStep.mk dir b false).spot = true := by
    rw [List.isPrefixOf_iff_prefix, LastStep.spot, LastStep.spot, List.prefix_append_right_inj]
    simpa using hab
  have hsource : t.node? (LastStep.mk dir name false).spot = some (.file data modified) := hnode
  have hfile : t.isDirectoryAt (LastStep.mk dir name false).spot = false :=
    isDirectoryAt_of_file hnode
  rw [FileTree.rename, h.lastStep, hq.lastStep]
  show (if (!(LastStep.mk dir name false).isName || !(LastStep.mk dir other false).isName) = true
    then _ else _) = _
  rw [hsteps, if_neg Bool.false_ne_true]
  simp only [hsource, hfile]
  rw [if_neg (by decide), if_neg hspots, if_neg (hbelow hne), if_neg (hbelow hne.symm),
    isDirectoryAt, show dir ++ [other] = (LastStep.mk dir other false).spot from rfl]
  cases t.node? (LastStep.mk dir other false).spot with
  | none => rfl
  | some node => cases node <;> rfl

/-- Something added to the file name: the text in front of it does not depend on what is added, and
the path leads to the same directory, if the disk takes it. -/
theorem exists_front (h : t.Leads p dir name) : ∃ front : String,
    ∀ ending, '/' ∉ ending.toList → (Disk.sibling p ending).text = front ++ name ++ ending ∧
      ('\x00' ∉ ending.toList → Fits (Disk.sibling p ending) → ∃ before,
        pieces (Disk.sibling p ending) = .ok (before ++ [name ++ ending]) ∧
        t.walk (t.startOf (Disk.sibling p ending)) before = .ok dir) := by
  obtain ⟨before, hpieces, hwalk⟩ := h.way
  obtain ⟨hall, -⟩ := pieces_eq_ok_iff.1 hpieces
  obtain ⟨-, hnul, hmap⟩ := allPieces_eq_ok_iff.1 hall
  obtain ⟨ps, last, hps, hlast, hspell⟩ := Path.exists_spell p.text.toList
  rw [hspell, Path.pieces_spell hps hlast, List.map_append, List.map_singleton] at hmap
  obtain ⟨rfl, hname⟩ := List.append_inj' hmap rfl
  obtain rfl : last = name.toList := by
    rw [← List.singleton_inj.1 hname, String.toList_ofList]
  have hnamed := isNamed_of_isName h.isName
  have hdots : name.toList ≠ ['.', '.'] := fun heq ↦ h.isName.2.2.1 (String.toList_inj.1 heq)
  obtain ⟨hfile, -⟩ := Path.exists_parent hps hlast hnamed hdots hspell
  rw [String.ofList_toList] at hfile
  obtain ⟨skipped, hsplit, hskipped⟩ := Path.exists_ahead_append ps
  refine ⟨String.ofList ((Path.ahead ps).flatMap (· ++ ['/'])), fun ending hending ↦ ?_⟩
  have hslash : '/' ∉ (name ++ ending).toList := by simp [hlast, hending]
  have htext : (Disk.sibling p ending).text.toList
      = Path.spell (Path.ahead ps) (name ++ ending).toList := by
    rw [Disk.sibling, hfile, Option.getD_some]
    exact Path.toList_withFileName hps hlast hnamed hdots hspell hslash
  refine ⟨String.toList_inj.1 (by simp [htext, Path.spell]), fun hnulEnding hfits ↦ ?_⟩
  have hstart : t.startOf (Disk.sibling p ending) = t.startOf p := by
    have habs : (Disk.sibling p ending).isAbsolute = p.isAbsolute := by
      rw [Bool.eq_iff_iff, Path.isAbsolute, Path.isAbsolute, beq_iff_eq, beq_iff_eq, htext, hspell]
      exact Path.head?_spell_ahead hps hlast hslash
    rw [startOf, startOf, habs]
  refine ⟨(Path.ahead ps).map String.ofList, ?_, ?_⟩
  · refine pieces_eq_ok_iff.2 ⟨allPieces_eq_ok_iff.2 ⟨?_, ?_, ?_⟩, hfits⟩
    · intro hempty
      rw [hempty] at htext
      have hnil := (List.append_eq_nil_iff.1 htext.symm).2
      rw [String.toList_append, List.append_eq_nil_iff, String.toList_eq_nil_iff] at hnil
      exact h.isName.1 hnil.1
    · rw [hspell, hsplit] at hnul
      rw [htext]
      simp only [Path.spell, List.flatMap_append, List.mem_append, not_or, String.toList_append]
        at hnul ⊢
      exact ⟨hnul.1.1, hnul.2, hnulEnding⟩
    · have hahead : ∀ q ∈ Path.ahead ps, '/' ∉ q :=
        fun q hq ↦ hps q (hsplit ▸ List.mem_append_left _ hq)
      rw [htext, Path.pieces_spell hahead hslash, List.map_append, List.map_singleton,
        String.ofList_toList]
  · -- what the parent leaves out leads nowhere
    rw [hsplit, List.map_append] at hwalk
    obtain ⟨s, hahead, hrest⟩ := walk_append_eq_ok_iff.1 hwalk
    have hnothing : ∀ q ∈ skipped.map String.ofList, q = "" ∨ q = "." := by
      intro q hq
      obtain ⟨cs, hcs, rfl⟩ := List.mem_map.1 hq
      have hcs' : cs = [] ∨ cs = ['.'] := by
        simpa [Path.isNamed, or_iff_not_imp_left] using hskipped cs hcs
      rcases hcs' with rfl | rfl
      · exact .inl rfl
      · exact .inr rfl
    rw [hstart, hahead, eq_of_walk_skipped hnothing hrest]

theorem isName_append {ending : String} (h : t.Leads p dir name) (hlength : 2 < ending.length)
    (hslash : '/' ∉ ending.toList) (hnul : '\x00' ∉ ending.toList)
    (hsize : (name ++ ending).utf8ByteSize ≤ maxName) : IsName (name ++ ending) := by
  have hne (short : String) (hshort : short.length ≤ 2) : name ++ ending ≠ short := by
    rintro rfl
    rw [String.length_append] at hshort
    omega
  refine ⟨hne "" (by decide), hne "." (by decide), hne ".." (by decide), ?_, ?_, hsize⟩
  · simp [h.isName.2.2.2.1, hslash]
  · simp [h.isName.2.2.2.2.1, hnul]

/-- If a draft can be made, the paths of the draft and of the backup lead to the directory of the
file. -/
theorem siblings (h : t.Leads p dir name) (hcreate : t.create (Disk.draftOf p) = .ok t') :
    t.Leads (Disk.draftOf p) dir (name ++ ".tmp") ∧
      t.Leads (Disk.backupOf p) dir (name ++ ".bak") := by
  obtain ⟨front, hfront⟩ := h.exists_front
  obtain ⟨step, hstep, -⟩ := Running.exceptBind_eq_ok.1 hcreate
  obtain ⟨all, hall, -⟩ := Running.exceptBind_eq_ok.1 hstep
  obtain ⟨htext, hway⟩ := hfront ".tmp" (by decide)
  obtain ⟨htext', hway'⟩ := hfront ".bak" (by decide)
  have hfits : Fits (Disk.draftOf p) := (pieces_eq_ok_iff.1 hall).2
  have hsame : ".bak".utf8ByteSize = ".tmp".utf8ByteSize := by decide
  have hfits' : Fits (Disk.backupOf p) := by
    rw [Fits, Disk.draftOf, htext, String.utf8ByteSize_append] at hfits
    rwa [Fits, Disk.backupOf, htext', String.utf8ByteSize_append, hsame]
  obtain ⟨before, hpieces, hwalk⟩ := hway (by decide) hfits
  obtain ⟨before', hpieces', hwalk'⟩ := hway' (by decide) hfits'
  have hsize : (name ++ ".tmp").utf8ByteSize ≤ maxName := by
    by_contra hlong
    have hne : name ++ ".tmp" ≠ "" := by simp
    rw [Disk.draftOf, lastStep_of_pieces hpieces hne hwalk h.isDirectory,
      if_pos (Nat.not_le.1 hlong)] at hstep
    cases hstep
  have hsize' : (name ++ ".bak").utf8ByteSize ≤ maxName := by
    rw [String.utf8ByteSize_append] at hsize
    rwa [String.utf8ByteSize_append, hsame]
  exact ⟨⟨h.isName_append (by decide) (by decide) (by decide) hsize, h.isDirectory, before, hpieces,
      hwalk⟩,
    ⟨h.isName_append (by decide) (by decide) (by decide) hsize', h.isDirectory, before', hpieces',
      hwalk'⟩⟩

end Leads

end FileTree

end CharacterScript
