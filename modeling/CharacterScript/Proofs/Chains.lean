import CharacterScript.Proofs.Disk.Changes
import CharacterScript.Proofs.SourceFiles
import Mathlib.Data.List.Chain
import Mathlib.Data.List.Nodup
import Mathlib.Data.List.Perm.Subperm

/-!
# Chains of script directories

Loading a directory follows the bases that the entry files name. The directories on the way differ
and there are finitely many, so the bound on the number of steps is never met
(`Project.seen_loadFrom_add`); what is loaded is the chain from the base of all up to the directory
(`Project.isChainOf_of_loadFrom`); and a way that comes back to a directory is refused
(`Project.cycle_of_way`).

## The directories that were visited

The bound on the number of steps is the number of places of the disk, and one more. A visited
directory is at a place, and no two of them are at one, so the steps that are left are always more
than the places not yet visited (`Visited`). When the steps have run out, everything has been
visited, and the next directory comes back to one of those. That makes the two reasons to refuse a
circle agree, and the bound a fact about the proof and not about the program.

## What a chain is

A chain is described by what its directories hold and not by how they were found: `IsChainOf` says
of each directory which base its entry file names, where that leads, and which files were taken.
It asks nothing of the directories below the base of all.
-/

namespace CharacterScript

namespace Project

open FileTree

variable {t : FileTree} {settings : Settings}

/-- The entry file of a directory can be read and holds this text. -/
def EntryText (t : FileTree) (settings : Settings) (dir : Path) (text : String) : Prop :=
  ∃ data, t.read (entryFile dir settings.entryFile) = .ok data ∧ String.fromUTF8? data = some text

theorem EntryText.of_read {dir : Path} {text : String}
    (h : t.read (entryFile dir settings.entryFile) = .ok text.toUTF8) :
    EntryText t settings dir text :=
  ⟨_, h, fromUTF8?_toUTF8 text⟩

/-- The entry file of a directory names a base, and this is where it leads. -/
def BuildsOn (t : FileTree) (settings : Settings) (dir below : Path) : Prop :=
  ∃ text base, EntryText t settings dir text ∧ scanBase? text = some base
    ∧ t.realPath (baseDir dir base) = .ok below

/-- The chain that ends in a directory: the base of all comes first, each of the others is built on
the one before it, and each holds its source files. -/
structure IsChainOf (t : FileTree) (settings : Settings) (dir : Path) (chain : List ScriptDir) :
    Prop where
  /-- The directory that was asked for comes last. -/
  last : chain.getLast?.map (·.dir) = some dir
  /-- No directory comes twice. -/
  distinct : (chain.map (·.dir)).Nodup
  /-- The first directory names no base. -/
  first : ∀ d, chain.head? = some d → d.base = none
  /-- The base that a directory names is the one before it, once links and dots are resolved. -/
  linked : chain.IsChain fun below above ↦
    ∃ base, above.base = some base ∧ t.realPath (baseDir above.dir base) = .ok below.dir
  /-- The base of a directory is the one its entry file names. -/
  entries : ∀ d ∈ chain, ∃ text, EntryText t settings d.dir text ∧ d.base = scanBase? text
  /-- The files of a directory are the sources in it, in the order of their names. -/
  files : ∀ d ∈ chain, ∃ spot, d.dir = pathOf spot ∧ t.isDirectoryAt spot = true
    ∧ t.ListsSources settings.extension spot d.files

/-! ## One step

A step reads the entry file and the directory. What they contain is a function of the tree of
files, so these lemmas turn a run of a computation into facts about the tree. -/

theorem isFile_of_read {p : Path} {data : ByteArray} (h : t.read p = .ok data) :
    (Disk.isFile p).seen t = true := by
  rw [FileTree.read] at h
  obtain ⟨spot, hfind, h⟩ := Running.exceptBind_eq_ok.1 h
  split at h
  next data' modified hnode => exact (seen_isFile p).2 ⟨spot, data', modified, hfind, hnode⟩
  · cases h
  · cases h

theorem seen_entryText {dir : Path} {text : String} :
    seen (entryText settings dir) t = .ok text ↔ EntryText t settings dir text := by
  have hread : seen (onDisk (Disk.readText (entryFile dir settings.entryFile))) t = .ok text
      ↔ EntryText t settings dir text := by
    rw [seen_onDisk (looks_readText _), mapError_eq_ok, seen_readText, EntryText]
  rw [entryText, seen_bind (.lift (looks_isFile _)), seen_lift (looks_isFile _)]
  cases hfile : (Disk.isFile (entryFile dir settings.entryFile)).seen t with
  | true => exact hread
  | false =>
    constructor
    · intro h
      cases h
    · rintro ⟨data, hdata, -⟩
      rw [isFile_of_read hdata] at hfile
      cases hfile

/-- The steps of loading as they come out on a tree. -/
theorem seen_loadFrom_succ (steps : Nat) (visited : List Path) (dir : Path) :
    seen (loadFrom settings (steps + 1) visited dir) t =
      ((t.realPath dir).mapError (.noDirectory dir) >>= fun real ↦
        if visited.contains real then .error (.cycle real) else
          seen (entryText settings real) t >>= fun text ↦
            seen (loadBelow settings steps visited real (scanBase? text)) t >>= fun below ↦
              seen (readDir settings real (scanBase? text)) t >>= fun own ↦
                .ok (below ++ [own])) := by
  rw [loadFrom_succ, seen_bind (.adapt _ (looks_realPath dir)), seen_adapt _ (looks_realPath dir),
    seen_realPath]
  refine bind_congr fun real ↦ ?_
  split
  · rfl
  · rw [seen_bind (looks_entryText settings real)]
    refine bind_congr fun text ↦ ?_
    rw [seen_bind (looks_loadBelow settings steps visited real _)]
    refine bind_congr fun below ↦ ?_
    rw [seen_bind (looks_readDir settings real _)]
    rfl

theorem seen_loadFrom_of_realPath {dir real : Path} (h : t.realPath dir = .ok real) (steps : Nat)
    (visited : List Path) : seen (loadFrom settings (steps + 1) visited dir) t =
      if visited.contains real then .error (.cycle real) else
        seen (entryText settings real) t >>= fun text ↦
          seen (loadBelow settings steps visited real (scanBase? text)) t >>= fun below ↦
            seen (readDir settings real (scanBase? text)) t >>= fun own ↦ .ok (below ++ [own]) := by
  rw [seen_loadFrom_succ, h]
  rfl

theorem seen_loadFrom_of_entryText {dir real : Path} (h : t.realPath dir = .ok real) {text : String}
    (hentry : EntryText t settings real text) (steps : Nat) {visited : List Path}
    (hnew : real ∉ visited) : seen (loadFrom settings (steps + 1) visited dir) t =
      (seen (loadBelow settings steps visited real (scanBase? text)) t >>= fun below ↦
        seen (readDir settings real (scanBase? text)) t >>= fun own ↦ .ok (below ++ [own])) := by
  rw [seen_loadFrom_of_realPath h, if_neg fun hmem ↦ hnew (List.contains_iff_mem.1 hmem),
    seen_entryText.2 hentry]
  rfl

/-- A directory that is loaded: where it really is, its entry file, what is below it in the chain
and what it holds itself. -/
theorem loadFrom_eq_ok {steps : Nat} {visited : List Path} {dir : Path} {chain : List ScriptDir}
    (h : seen (loadFrom settings (steps + 1) visited dir) t = .ok chain) :
    ∃ real text below own, t.realPath dir = .ok real ∧ real ∉ visited ∧
      EntryText t settings real text
      ∧ seen (loadBelow settings steps visited real (scanBase? text)) t = .ok below
      ∧ seen (readDir settings real (scanBase? text)) t = .ok own ∧ chain = below ++ [own] := by
  rw [seen_loadFrom_succ] at h
  obtain ⟨real, hreal, h⟩ := Running.exceptBind_eq_ok.1 h
  split at h
  · cases h
  next hnew =>
    obtain ⟨text, htext, h⟩ := Running.exceptBind_eq_ok.1 h
    obtain ⟨below, hbelow, h⟩ := Running.exceptBind_eq_ok.1 h
    obtain ⟨own, hown, h⟩ := Running.exceptBind_eq_ok.1 h
    cases h
    exact ⟨real, text, below, own, mapError_eq_ok.1 hreal,
      fun hmem ↦ hnew (List.contains_iff_mem.2 hmem),
      seen_entryText.1 htext, hbelow, hown, rfl⟩

theorem readDir_eq_ok {dir : Path} {base : Option String} {own : ScriptDir}
    (h : seen (readDir settings dir base) t = .ok own) :
    own.dir = dir ∧ own.base = base ∧ seen (sourceFiles settings dir) t = .ok own.files := by
  rw [readDir, seen_bind (looks_sourceFiles settings dir)] at h
  obtain ⟨files, hfiles, h⟩ := Running.exceptBind_eq_ok.1 h
  rw [seen_bind (looks_readAll files)] at h
  obtain ⟨contents, -, h⟩ := Running.exceptBind_eq_ok.1 h
  cases h
  exact ⟨rfl, rfl, hfiles⟩

/-! ## The chain

The directory that was asked for is put behind the chain of its base, so the induction takes a
chain and puts one more at its end. -/

/-- A directory without a base is a chain. -/
theorem isChainOf_singleton {own : ScriptDir} (hbase : own.base = none)
    (hentry : ∃ text, EntryText t settings own.dir text ∧ own.base = scanBase? text)
    (hfiles : ∃ spot, own.dir = pathOf spot ∧ t.isDirectoryAt spot = true
      ∧ t.ListsSources settings.extension spot own.files) : IsChainOf t settings own.dir [own] where
  last := rfl
  distinct := List.nodup_singleton _
  first d hd := by
    cases hd
    exact hbase
  linked := .singleton own
  entries d hd := by
    rw [List.mem_singleton.1 hd]
    exact hentry
  files d hd := by
    rw [List.mem_singleton.1 hd]
    exact hfiles

/-- A directory is put behind the chain of its base. -/
theorem IsChainOf.concat {below : Path} {chain : List ScriptDir}
    (h : IsChainOf t settings below chain)
    {own : ScriptDir} {base : String} (hbase : own.base = some base)
    (hbelow : t.realPath (baseDir own.dir base) = .ok below) (hnew : ∀ d ∈ chain, d.dir ≠ own.dir)
    (hentry : ∃ text, EntryText t settings own.dir text ∧ own.base = scanBase? text)
    (hfiles : ∃ spot, own.dir = pathOf spot ∧ t.isDirectoryAt spot = true
      ∧ t.ListsSources settings.extension spot own.files) :
    IsChainOf t settings own.dir (chain ++ [own]) where
  last := by
    rw [List.getLast?_concat]
    rfl
  distinct := by
    rw [List.map_append, List.map_singleton, List.nodup_append]
    refine ⟨h.distinct, List.nodup_singleton _, fun a ha b hb ↦ ?_⟩
    obtain ⟨d, hd, rfl⟩ := List.mem_map.1 ha
    rw [List.mem_singleton.1 hb]
    exact hnew d hd
  first d hd := by
    cases chain with
    | nil => cases h.last
    | cons first chain => exact h.first d hd
  linked := by
    refine h.linked.append (.singleton own) fun last hlast d hd ↦ ?_
    have hdir := h.last
    rw [hlast] at hdir
    cases hd
    cases hdir
    exact ⟨base, hbase, hbelow⟩
  entries d hd := by
    obtain hd | hd := List.mem_append.1 hd
    · exact h.entries d hd
    · rw [List.mem_singleton.1 hd]
      exact hentry
  files d hd := by
    obtain hd | hd := List.mem_append.1 hd
    · exact h.files d hd
    · rw [List.mem_singleton.1 hd]
      exact hfiles

/-- What is loaded is the chain of the directory, clear of all that was visited. -/
theorem isChainOf_of_loadFrom (ht : t.WellFormed) {steps : Nat} {visited : List Path} {dir : Path}
    {chain : List ScriptDir} (h : seen (loadFrom settings steps visited dir) t = .ok chain) :
    ∃ real, t.realPath dir = .ok real ∧ IsChainOf t settings real chain
      ∧ ∀ d ∈ chain, d.dir ∉ visited := by
  induction steps generalizing visited dir chain with
  | zero => cases h
  | succ steps ih =>
    obtain ⟨real, text, below, own, hreal, hnew, hentry, hbelow, hown, rfl⟩ := loadFrom_eq_ok h
    obtain ⟨spot, hspot, rfl⟩ := ht.exists_of_realPath hreal
    obtain ⟨hdir, hbase, hfiles⟩ := readDir_eq_ok hown
    have hfiles' := listsSources_of_sourceFiles ht hspot hfiles
    refine ⟨pathOf spot, hreal, ?_⟩
    rw [← hdir] at hentry hnew hbelow hreal ⊢
    cases htext : scanBase? text with
    | none =>
      rw [htext] at hbelow hbase
      cases hbelow
      refine ⟨isChainOf_singleton hbase ⟨text, hentry, hbase.trans htext.symm⟩
        ⟨spot, hdir, hfiles'⟩, fun d hd ↦ ?_⟩
      rw [List.mem_singleton.1 hd]
      exact hnew
    | some base =>
      rw [htext] at hbelow hbase
      obtain ⟨realBelow, hrealBelow, hchain, hclear⟩ := ih hbelow
      refine ⟨hchain.concat hbase hrealBelow (fun d hd heq ↦ hclear d hd (heq ▸ List.mem_cons_self))
        ⟨text, hentry, hbase.trans htext.symm⟩ ⟨spot, hdir, hfiles'⟩, fun d hd ↦ ?_⟩
      obtain hd | hd := List.mem_append.1 hd
      · exact fun hmem ↦ hclear d hd (List.mem_cons_of_mem _ hmem)
      · rw [List.mem_singleton.1 hd]
        exact hnew

/-! ## The bound on the number of steps -/

/-- Directories that were visited on the way: they are there, and differ from each other. -/
structure Visited (t : FileTree) (visited : List Path) : Prop where
  /-- None of them was entered twice. -/
  distinct : visited.Nodup
  /-- Each of them is at a place of the tree. -/
  there : ∀ p ∈ visited, ∃ spot, t.Has spot ∧ p = pathOf spot

theorem Visited.cons (ht : t.WellFormed) {visited : List Path} (h : Visited t visited)
    {dir real : Path}
    (hreal : t.realPath dir = .ok real) (hnew : real ∉ visited) : Visited t (real :: visited) where
  distinct := List.nodup_cons.2 ⟨hnew, h.distinct⟩
  there p hp := by
    obtain rfl | hp := List.mem_cons.1 hp
    · exact ht.exists_of_realPath hreal
    · exact h.there p hp

/-- There are no more of them than places. -/
theorem Visited.length_le {visited : List Path} (h : Visited t visited) :
    visited.length ≤ t.entries.length + 1 := by
  have hsub : visited ⊆ ([] :: t.entries.map (·.1)).map pathOf := by
    intro p hp
    obtain ⟨spot, hspot, rfl⟩ := h.there p hp
    refine List.mem_map_of_mem ?_
    by_cases hne : spot = []
    · rw [hne]
      exact List.mem_cons_self
    · obtain ⟨entry, hentry, rfl⟩ := (has_iff_mem hne).1 hspot
      exact List.mem_cons_of_mem _ (List.mem_map_of_mem hentry)
  have hlength := (List.subperm_of_subset h.distinct hsub).length_le
  simpa using hlength

/-- More steps than it takes to visit every place make no difference. -/
theorem seen_loadFrom_add (ht : t.WellFormed) {steps : Nat} {visited : List Path}
    (hvisited : Visited t visited) (hsteps : t.entries.length + 2 ≤
    visited.length + steps) (more : Nat)
    (dir : Path) : seen (loadFrom settings (steps + more) visited dir) t
      = seen (loadFrom settings steps visited dir) t := by
  induction steps generalizing visited dir with
  | zero =>
    have hlength := hvisited.length_le
    omega
  | succ steps ih =>
    rw [Nat.add_right_comm]
    cases hreal : t.realPath dir with
    | error e =>
      rw [seen_loadFrom_succ, seen_loadFrom_succ, hreal]
      rfl
    | ok real =>
      rw [seen_loadFrom_of_realPath hreal, seen_loadFrom_of_realPath hreal]
      split
      · rfl
      next hnew =>
        have hnext := hvisited.cons ht hreal fun hmem ↦ hnew (List.contains_iff_mem.2 hmem)
        refine bind_congr fun text ↦ ?_
        have hbelow : seen (loadBelow settings (steps + more) visited real (scanBase? text)) t
            = seen (loadBelow settings steps visited real (scanBase? text)) t := by
          cases scanBase? text with
          | none => rfl
          | some base => exact ih hnext (by simp; omega) (baseDir real base)
        rw [hbelow]

/-! ## Ways that come back

A way is followed as long as it goes to new directories. At the first that is not new, the search
says so, and it is the same one that the way meets again. -/

/-- A way that meets a directory again is refused there. -/
theorem cycle_of_way (ht : t.WellFormed) {steps : Nat} {visited : List Path}
    (hvisited : Visited t visited) (hsteps : t.entries.length + 2 ≤ visited.length + steps)
    {dir first : Path} {rest : List Path} (hfirst : t.realPath dir = .ok first)
    (hway : (first :: rest).IsChain (BuildsOn t settings))
    (hback : ¬((first :: rest).Nodup ∧ ∀ p ∈ first :: rest, p ∉ visited)) :
    ∃ d ∈ first :: rest, seen (loadFrom settings steps visited dir) t = .error (.cycle d) := by
  induction steps generalizing visited dir first rest with
  | zero =>
    have hlength := hvisited.length_le
    omega
  | succ steps ih =>
    by_cases hmem : first ∈ visited
    · rw [seen_loadFrom_of_realPath hfirst, if_pos (List.contains_iff_mem.2 hmem)]
      exact ⟨first, List.mem_cons_self, rfl⟩
    cases rest with
    | nil => exact absurd ⟨List.nodup_singleton _, by simpa using hmem⟩ hback
    | cons second rest =>
      obtain ⟨⟨text, base, hentry, hbase, hsecond⟩, hway⟩ := List.isChain_cons_cons.1 hway
      -- what was visited before, or `first` itself, is met again further on
      have hback' : ¬((second :: rest).Nodup ∧ ∀ p ∈ second :: rest, p ∉ first :: visited) := by
        rintro ⟨hdistinct, hclear⟩
        have hnodup : (first :: second :: rest).Nodup :=
          List.nodup_cons.2 ⟨fun hfirst ↦ hclear first hfirst List.mem_cons_self, hdistinct⟩
        refine hback ⟨hnodup, fun p hp ↦ ?_⟩
        obtain rfl | hp := List.mem_cons.1 hp
        · exact hmem
        · exact fun hvisited ↦ hclear p hp (List.mem_cons_of_mem _ hvisited)
      have hsteps' : t.entries.length + 2 ≤ (first :: visited).length + steps := by
        rw [List.length_cons]
        omega
      obtain ⟨d, hd, hcycle⟩ := ih (hvisited.cons ht hfirst hmem) hsteps' hsecond hway hback'
      refine ⟨d, List.mem_cons_of_mem _ hd, ?_⟩
      rw [seen_loadFrom_of_entryText hfirst hentry steps hmem, hbase, loadBelow, hcycle]
      rfl

/-! ## A directory without a base -/

theorem seen_loadChain (settings : Settings) (dir : Path) :
    seen (loadChain settings dir) t = seen (loadFrom settings (t.entries.length + 2) [] dir) t := by
  rw [loadChain, seen_bind (.lift looks_extent), seen_lift looks_extent]
  rfl

theorem exists_readAll {paths : List Path}
    (h : ∀ p ∈ paths, ∃ text, seen (Disk.readText p) t = .ok text) :
    ∃ contents, seen (readAll paths) t = .ok contents := by
  induction paths with
  | nil => exact ⟨[], rfl⟩
  | cons p paths ih =>
    obtain ⟨text, htext⟩ := h p List.mem_cons_self
    obtain ⟨contents, hcontents⟩ := ih fun p hp ↦ h p (List.mem_cons_of_mem _ hp)
    refine ⟨(p.text, text) :: contents, ?_⟩
    rw [readAll, seen_bind (looks_readText p).onDisk, seen_onDisk (looks_readText p), htext]
    show seen (readAll paths >>= _) t = _
    rw [seen_bind (looks_readAll paths), hcontents]
    rfl

theorem exists_readDir (ht : t.WellFormed) {spot : Spot} (hdir : t.isDirectoryAt spot = true)
    (hfits : Fits (pathOf spot)) (base : Option String)
    (htexts : ∀ s data modified, t.node? s = some (.file data modified) →
      ∃ text, String.fromUTF8? data = some text) :
    ∃ own, seen (readDir settings (pathOf spot) base) t = .ok own := by
  have hspot := has_of_isDirectoryAt hdir
  have hlist : t.list (pathOf spot) = .ok (t.children spot) := by
    rw [FileTree.list, ht.find_pathOf hspot hfits]
    show (if t.isDirectoryAt spot = true then _ else _) = _
    rw [if_pos hdir]
    rfl
  obtain ⟨files, hfiles⟩ : ∃ files, seen (sourceFiles settings (pathOf spot)) t = .ok files := by
    rw [seen_sourceFiles, hlist]
    exact ⟨_, rfl⟩
  obtain ⟨-, names, -, hnames, rfl⟩ := listsSources_of_sourceFiles ht hspot hfiles
  obtain ⟨contents, hcontents⟩ : ∃ contents, seen (readAll (names.map fun name ↦
      pathOf (spot ++ [name]))) t = .ok contents := by
    refine exists_readAll fun p hp ↦ ?_
    obtain ⟨name, hname, rfl⟩ := List.mem_map.1 hp
    obtain ⟨hsource, hfits⟩ := (hnames name).1 hname
    obtain ⟨data, modified, hnode⟩ := hsource.1
    obtain ⟨text, htext⟩ := htexts _ _ _ hnode
    exact ⟨text, seen_readText.2 ⟨data, ht.read_pathOf hnode hfits, htext⟩⟩
  refine ⟨⟨pathOf spot, names.map fun name ↦ pathOf (spot ++ [name]), stitch contents, base⟩, ?_⟩
  rw [readDir, seen_bind (looks_sourceFiles settings _), hfiles]
  show seen (readAll _ >>= _) t = _
  rw [seen_bind (looks_readAll _), hcontents]
  rfl

theorem exists_loadChain (ht : t.WellFormed) {spot : Spot} (hdir : t.isDirectoryAt spot = true)
    (hfits : Fits (pathOf spot)) {text : String} (hentry : EntryText t settings (pathOf spot) text)
    (hbase : scanBase? text = none)
    (htexts : ∀ s data modified, t.node? s = some (.file data modified) →
      ∃ text, String.fromUTF8? data = some text) :
    ∃ own, seen (loadChain settings (pathOf spot)) t = .ok [own] := by
  obtain ⟨own, hown⟩ := @exists_readDir t settings ht spot hdir hfits none htexts
  refine ⟨own, ?_⟩
  rw [seen_loadChain, seen_loadFrom_of_entryText (ht.realPath_pathOf (has_of_isDirectoryAt hdir))
    hentry _ List.not_mem_nil, hbase, loadBelow, seen_pure, hown]
  rfl

/-! ## Loading -/

/-- Loading follows the bases. It needs no more steps than there are places to visit; a chain that
it loads is the chain of the directory; and if the bases lead back to a directory on the way, it
finds the cycle. -/
theorem loadChain_follows_bases (t : FileTree) (ht : t.WellFormed) (settings : Settings)
    (dir : Path) :
    (∀ more, seen (loadFrom settings (t.entries.length + 2 + more) [] dir) t
      = seen (loadChain settings dir) t)
    ∧ (∀ chain, seen (loadChain settings dir) t = .ok chain →
        ∃ real, t.realPath dir = .ok real ∧ IsChainOf t settings real chain)
    ∧ (∀ first rest, t.realPath dir = .ok first → (first :: rest).IsChain (BuildsOn t settings) →
        ¬(first :: rest).Nodup →
          ∃ d ∈ first :: rest, seen (loadChain settings dir) t = .error (.cycle d)) := by
  have hnone : Visited t [] := ⟨List.nodup_nil, fun p hp ↦ absurd hp List.not_mem_nil⟩
  have hsteps : t.entries.length + 2 ≤ ([] : List Path).length + (t.entries.length + 2) := by simp
  rw [seen_loadChain]
  refine ⟨fun more ↦ seen_loadFrom_add ht hnone hsteps more dir, fun chain hchain ↦ ?_,
    fun first rest hfirst hway hback ↦ ?_⟩
  · obtain ⟨real, hreal, hchain, -⟩ := isChainOf_of_loadFrom ht hchain
    exact ⟨real, hreal, hchain⟩
  · exact cycle_of_way ht hnone hsteps hfirst hway fun h ↦ hback h.1

/-- A directory with a base, and two that are each the base of the other. -/
private def family : FileTree :=
  { entries := [(["base"], .directory 0), (["base", "main.rai"], .file "#out base.bin".toUTF8 0),
      (["hero"], .directory 0), (["hero", "main.rai"], .file "#extends base".toUTF8 0),
      (["ping"], .directory 0), (["ping", "main.rai"], .file "#extends ../pong".toUTF8 0),
      (["pong"], .directory 0), (["pong", "main.rai"], .file "#extends ping".toUTF8 0)] }

/-- What is run here: whether it is a tree, its bases, and the chain of one of the directories. -/
private theorem family_runs :
    family.WellFormed ∧ scanBase? "#extends ../pong" = some "../pong" ∧
      scanBase? "#extends ping" = some "ping" ∧
      (seen (loadChain {} (pathOf ["hero"])) family).toOption.map (·.map (·.dir))
        = some [pathOf ["base"], pathOf ["hero"]] := by
  decide +kernel

theorem loadChain_follows_bases_family :
    (∃ chain, seen (loadChain {} (pathOf ["hero"])) family = .ok chain
      ∧ chain.map (·.dir) = [pathOf ["base"], pathOf ["hero"]]
      ∧ IsChainOf family {} (pathOf ["hero"]) chain)
    ∧ ∃ d ∈ [pathOf ["ping"], pathOf ["pong"], pathOf ["ping"]],
        seen (loadChain {} (pathOf ["ping"])) family = .error (.cycle d) := by
  obtain ⟨ht, hpong, hping, hdirs⟩ := family_runs
  constructor
  · obtain ⟨chain, hsome, hdirs⟩ := Option.map_eq_some_iff.1 hdirs
    have hok := Running.toOption_eq_some.1 hsome
    obtain ⟨real, hreal, hchain⟩ := (loadChain_follows_bases _ ht _ _).2.1 _ hok
    have hhero : family.Has ["hero"] := rfl
    rw [ht.realPath_pathOf hhero] at hreal
    exact ⟨chain, hok, hdirs, Except.ok.inj hreal ▸ hchain⟩
  · have hhas : family.Has ["ping"] := rfl
    have hfirst : BuildsOn family {} (pathOf ["ping"]) (pathOf ["pong"]) :=
      ⟨"#extends ../pong", "../pong", .of_read rfl, hpong, rfl⟩
    have hsecond : BuildsOn family {} (pathOf ["pong"]) (pathOf ["ping"]) :=
      ⟨"#extends ping", "ping", .of_read rfl, hping, rfl⟩
    exact (loadChain_follows_bases _ ht _ _).2.2 _ _ (ht.realPath_pathOf hhas)
      (by simpa using ⟨hfirst, hsecond⟩) (by simp)

/-! ## Directories far down

Some of the files of a directory can have paths that are longer than the disk takes. They are left
out, and nothing is said of it. -/

/-- Directories of one name, each in the one before. -/
private def tower (name : String) : Nat → FileTree
  | 0 => {}
  | n + 1 => (tower name n).putDir (List.replicate n name ++ [name])

private theorem wellFormed_tower {name : String} (h : IsName name) (n : Nat) :
    (tower name n).WellFormed ∧ (tower name n).isDirectoryAt (List.replicate n name) = true := by
  induction n with
  | zero => exact ⟨wellFormed_empty, rfl⟩
  | succ n ih =>
    refine ⟨ih.1.putDir ih.2 h, ?_⟩
    rw [tower, isDirectoryAt_putDir _ (by simp), List.replicate_succ', if_pos rfl]

private theorem node?_tower {name : String} {n : Nat} {s : Spot} {node : Node}
    (h : (tower name n).node? s = some node) : node.isDirectory = true ∧ s.length ≤ n := by
  induction n with
  | zero =>
    cases s with
    | nil =>
      cases h
      exact ⟨rfl, Nat.le_refl _⟩
    | cons first s => cases h
  | succ n ih =>
    rw [tower, node?_putDir _ (by simp)] at h
    split at h
    next hs =>
      cases h
      rw [hs]
      exact ⟨rfl, by simp⟩
    · obtain ⟨hdir, hlength⟩ := ih h
      exact ⟨hdir, by omega⟩

/-- A name that begins with a row of letters. -/
private def longName (n : Nat) (ending : String) : String :=
  String.ofList (List.replicate n 'd') ++ ending

private theorem toList_longName (n : Nat) (ending : String) :
    (longName n ending).toList = List.replicate n 'd' ++ ending.toList := by
  simp [longName]

private theorem utf8ByteSize_longName (n : Nat) (ending : String) :
    (longName n ending).utf8ByteSize = n + ending.utf8ByteSize := by
  rw [longName, String.utf8ByteSize_append]
  induction n with
  | zero => rfl
  | succ n ih =>
    have hletter : 'd'.utf8Size = 1 := rfl
    rw [List.replicate_succ, String.ofList_cons, String.utf8ByteSize_append,
      String.utf8ByteSize_singleton]
    omega

private theorem isName_longName {n : Nat} {ending : String} (hn : 3 ≤ n)
    (hslash : '/' ∉ ending.toList) (hnul : '\x00' ∉ ending.toList)
    (hsize : n + ending.utf8ByteSize ≤ maxName) : IsName (longName n ending) := by
  have hlength : 3 ≤ (longName n ending).toList.length := by
    rw [toList_longName, List.length_append, List.length_replicate]
    omega
  have hshort : ∀ name : String, name.toList.length < 3 → longName n ending ≠ name := by
    intro name hname heq
    rw [heq] at hlength
    omega
  refine ⟨hshort "" (by decide), hshort "." (by decide), hshort ".." (by decide), ?_, ?_, ?_⟩
  · simp [toList_longName, hslash]
  · simp [toList_longName, hnul]
  · rwa [utf8ByteSize_longName]

private theorem extension?_longName {n : Nat} (hn : 0 < n) (hname : IsName (longName n ".rai")) :
    (Path.mk (longName n ".rai")).extension? = some "rai" := by
  rw [Path.extension?, fileName?_of_isName hname]
  simp [toList_longName, hn]

private theorem utf8ByteSize_pathOf_replicate (m n : Nat) (name : String) :
    (pathOf (List.replicate m (longName n "") ++ [name])).text.utf8ByteSize
      = m * (n + 1) + (name.utf8ByteSize + 1) := by
  rw [utf8ByteSize_pathOf (by simp), List.map_append, List.map_replicate, List.sum_append,
    List.sum_replicate_nat, utf8ByteSize_longName]
  simp

/-- Sixteen directories below the root. -/
private def farDown : Spot :=
  List.replicate 16 (longName 240 "")

/-- Two empty files far down, one of them with a name that makes its path too long. -/
private def deepTree : FileTree :=
  ((tower (longName 240 "") 16).put (farDown ++ ["main.rai"]) .empty).put
    (farDown ++ [longName 240 ".rai"]) .empty

private theorem isName_deep : IsName (longName 240 "") ∧ IsName (longName 240 ".rai") :=
  ⟨isName_longName (by decide) (by decide) (by decide) (by decide),
    isName_longName (by decide) (by decide) (by decide) (by decide)⟩

private theorem fits_main : Fits (pathOf (farDown ++ ["main.rai"])) := by
  rw [Fits, farDown, utf8ByteSize_pathOf_replicate]
  decide

private theorem not_fits_long : ¬Fits (pathOf (farDown ++ [longName 240 ".rai"])) := by
  rw [Fits, farDown, utf8ByteSize_pathOf_replicate, utf8ByteSize_longName]
  decide

private theorem main_ne_long : farDown ++ ["main.rai"] ≠ farDown ++ [longName 240 ".rai"] := by
  intro h
  refine not_fits_long ?_
  rw [← h]
  exact fits_main

private theorem isDirectoryAt_tower_below (name : String) :
    (tower (longName 240 "") 16).isDirectoryAt (farDown ++ [name]) = false := by
  by_contra hdir
  rw [Bool.not_eq_false] at hdir
  obtain ⟨node, hnode⟩ := Option.isSome_iff_exists.1 (has_of_isDirectoryAt hdir)
  have hlength := (node?_tower hnode).2
  simp [farDown] at hlength

private theorem wellFormed_deepTree :
    deepTree.WellFormed ∧ deepTree.isDirectoryAt farDown = true := by
  have hself (name : String) : farDown ≠ farDown ++ [name] := by simp
  obtain ⟨htower, hdir⟩ := wellFormed_tower isName_deep.1 16
  have hmain := htower.put hdir (show IsName "main.rai" by decide)
    (isDirectoryAt_tower_below _) .empty
  refine ⟨hmain.put ?_ isName_deep.2 ?_ .empty, ?_⟩
  · rw [isDirectoryAt_put _ (by simp)]
    exact (if_neg (hself _)).trans hdir
  · rw [isDirectoryAt_put _ (by simp)]
    exact (if_neg main_ne_long.symm).trans (isDirectoryAt_tower_below _)
  · rw [deepTree, isDirectoryAt_put _ (by simp), if_neg (hself _), isDirectoryAt_put _ (by simp),
      if_neg (hself _)]
    exact hdir

private theorem deepTree_texts (s : Spot) (data : ByteArray) (modified : Int)
    (h : deepTree.node? s = some (.file data modified)) :
      ∃ text, String.fromUTF8? data = some text := by
  rw [deepTree, node?_put _ (by simp), node?_put _ (by simp)] at h
  split at h
  · cases h
    exact ⟨"", rfl⟩
  split at h
  · cases h
    exact ⟨"", rfl⟩
  · cases (node?_tower h).1

private theorem entryText_deepTree : EntryText deepTree {} (pathOf farDown) "" := by
  obtain ⟨ht, hdir⟩ := wellFormed_deepTree
  have hentry : entryFile (pathOf farDown) "main.rai" = pathOf (farDown ++ ["main.rai"]) :=
    ht.join_pathOf (has_of_isDirectoryAt hdir) (by decide)
  have hnode : deepTree.node? (farDown ++ ["main.rai"])
      = some (.file .empty (tower (longName 240 "") 16).clock) := by
    rw [deepTree, node?_put _ (by simp), if_neg main_ne_long, node?_put _ (by simp), if_pos rfl]
  refine ⟨.empty, ?_, rfl⟩
  rw [hentry]
  exact ht.read_pathOf hnode fits_main

/-- A source file far down is left out: its path is too long. -/
theorem source_left_out : deepTree.WellFormed
    ∧ deepTree.IsSource "rai" farDown (longName 240 ".rai")
    ∧ ∃ own, seen (loadChain {} (pathOf farDown)) deepTree = .ok [own] ∧ own.dir = pathOf farDown
      ∧ pathOf (farDown ++ [longName 240 ".rai"]) ∉ own.files := by
  obtain ⟨ht, hdir⟩ := wellFormed_deepTree
  have hlong : deepTree.IsSource "rai" farDown (longName 240 ".rai") := by
    refine ⟨⟨.empty, ((tower (longName 240 "") 16).put (farDown ++ ["main.rai"]) .empty).clock, ?_⟩,
      extension?_longName (by decide) isName_deep.2⟩
    rw [deepTree, node?_put _ (by simp), if_pos rfl]
  obtain ⟨own, hown⟩ := exists_loadChain ht hdir fits_main.of_concat entryText_deepTree
    (by decide +kernel) deepTree_texts
  obtain ⟨real, hreal, hchain, -⟩ := isChainOf_of_loadFrom ht ((seen_loadChain _ _).symm.trans hown)
  rw [ht.realPath_pathOf (has_of_isDirectoryAt hdir)] at hreal
  obtain ⟨spot, -, -, hfiles⟩ := hchain.files own List.mem_cons_self
  have hdir : own.dir = real := Option.some.inj hchain.last
  exact ⟨ht, hlong, own, hown, hdir.trans (Except.ok.inj hreal).symm,
    fun hmem ↦ not_fits_long (hfiles.fits hmem)⟩

end Project

end CharacterScript
