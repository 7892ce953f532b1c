import CharacterScript.Proofs.Disk.Places

/-!
# Source files

The source files that a script directory is read from are its regular files with the extension of
the settings, in the order of their names (`Project.listsSources_of_sourceFiles`). A file whose path
is longer than the disk takes is passed over: it is listed, but the disk does not say what it is.

## Order and names

The names in a directory come in no order from the disk and are sorted by their bytes. They differ
from each other, so the sorted list is the only one with these names in order, and a list of files
is given by the set of its names.
-/

namespace CharacterScript

namespace FileTree

variable {t : FileTree}

/-- A regular file of the directory at a place, with an extension. -/
def IsSource (t : FileTree) (extension : String) (spot : Spot) (name : String) : Prop :=
  (∃ data modified, t.node? (spot ++ [name]) = some (.file data modified))
    ∧ (Path.mk name).extension? = some extension

/-- These are the paths of the source files of the directory at a place that the disk takes, by
name. -/
def ListsSources (t : FileTree) (extension : String) (spot : Spot) (files : List Path) : Prop :=
  ∃ names : List String, names.Pairwise (· < ·)
    ∧ (∀ name, name ∈ names ↔ t.IsSource extension spot name ∧ Fits (pathOf (spot ++ [name])))
    ∧ files = names.map fun name ↦ pathOf (spot ++ [name])

theorem ListsSources.fits {extension : String} {spot : Spot} {files : List Path}
    (h : t.ListsSources extension spot files) {p : Path} (hp : p ∈ files) : Fits p := by
  obtain ⟨names, -, hnames, rfl⟩ := h
  obtain ⟨name, hname, rfl⟩ := List.mem_map.1 hp
  exact ((hnames name).1 hname).2

/-! ## Listing -/

theorem child_eq_some_iff {s spot : Spot} {name : String} :
    (if s.dropLast = spot then s.getLast? else none) = some name ↔ s = spot ++ [name] := by
  constructor
  · intro h
    split at h
    next hspot => rw [← hspot, List.dropLast_append_getLast? name h]
    · cases h
  · rintro rfl
    simp

theorem mem_children {spot : Spot} {name : String} :
    name ∈ t.children spot ↔ t.Has (spot ++ [name]) := by
  rw [children, List.mem_filterMap, has_iff_mem (by simp)]
  exact exists_congr fun entry ↦ and_congr_right fun _ ↦ child_eq_some_iff

theorem WellFormed.nodup_children (ht : t.WellFormed) (spot : Spot) : (t.children spot).Nodup := by
  have hdistinct : t.entries.Pairwise fun a b ↦ a.1 ≠ b.1 := List.pairwise_map.1 ht.distinct
  refine hdistinct.filterMap _ fun a b hne name ha name' hb heq ↦ hne ?_
  rw [child_eq_some_iff.1 ha, child_eq_some_iff.1 hb, heq]

theorem find_of_list {p : Path} {names : List String} (h : t.list p = .ok names) :
    ∃ spot, t.find p = .ok spot ∧ t.isDirectoryAt spot = true ∧ names = t.children spot := by
  rw [list] at h
  obtain ⟨spot, hfind, h⟩ := Running.exceptBind_eq_ok.1 h
  split at h
  next hdir =>
    cases h
    exact ⟨spot, hfind, hdir, rfl⟩
  · cases h

/-! ## Files

Whether a path is that of a file is asked of the disk, and a path that is too long is refused
before anything is looked up. To the program this looks as if there was no file. -/

theorem seen_type? (p : Path) : (Disk.type? p).seen t = (t.stat p).toOption.map Stat.type := by
  have hask : Disk.type? p = (Disk.stat p).run >>= fun outcome ↦
      pure (outcome.toOption.map Stat.type) := by
    refine congrArg ((Disk.stat p).run >>= ·) (funext fun outcome ↦ ?_)
    cases outcome <;> rfl
  rw [hask, DiskM.Looks.seen_bind (looks_stat p), DiskM.seen_pure]
  rfl

theorem stat_eq_file_iff {p : Path} : (∃ modified, t.stat p = .ok ⟨.file, modified⟩) ↔
    ∃ spot data modified, t.find p = .ok spot ∧ t.node? spot = some (.file data modified) := by
  constructor
  · rintro ⟨modified, h⟩
    rw [stat] at h
    obtain ⟨spot, hfind, h⟩ := Running.exceptBind_eq_ok.1 h
    split at h
    next data modified' hnode => exact ⟨spot, data, modified', hfind, hnode⟩
    · cases h
    · cases h
  · rintro ⟨spot, data, modified, hfind, hnode⟩
    refine ⟨modified, Running.exceptBind_eq_ok.2 ⟨spot, hfind, ?_⟩⟩
    rw [hnode]
    rfl

theorem seen_isFile (p : Path) : (Disk.isFile p).seen t = true ↔
    ∃ spot data modified, t.find p = .ok spot ∧ t.node? spot = some (.file data modified) := by
  have hseen : (Disk.isFile p).seen t = decide ((Disk.type? p).seen t = some .file) :=
    (looks_type? p).seen_bind _ t
  rw [hseen, decide_eq_true_iff, seen_type?, ← stat_eq_file_iff]
  cases t.stat p with
  | error e => simp [Except.toOption]
  | ok s =>
    obtain ⟨type, modified⟩ := s
    simp [Except.toOption]

/-- The path of a place leads to a file if there is one and the path is not too long. -/
theorem WellFormed.seen_isFile_pathOf (ht : t.WellFormed) {spot : Spot} (h : t.Has spot) :
    (Disk.isFile (pathOf spot)).seen t = true ↔
      (∃ data modified, t.node? spot = some (.file data modified)) ∧ Fits (pathOf spot) := by
  rw [seen_isFile]
  constructor
  · rintro ⟨spot', data, modified, hfind, hnode⟩
    rw [ht.eq_of_find_pathOf h hfind] at hnode
    exact ⟨⟨data, modified, hnode⟩, fits_of_find hfind⟩
  · rintro ⟨⟨data, modified, hnode⟩, hfits⟩
    exact ⟨spot, data, modified, ht.find_pathOf h hfits, hnode⟩

theorem IsSource.has {extension : String} {spot : Spot} {name : String}
    (h : t.IsSource extension spot name) : t.Has (spot ++ [name]) := by
  obtain ⟨⟨data, modified, hnode⟩, -⟩ := h
  rw [Has, hnode]
  rfl

end FileTree

/-! ## Reading a directory

The names are put behind the path of the directory as texts, and the path of a place with a name
behind it is the path of the place of that name. -/

namespace Project

open FileTree

variable {t : FileTree}

theorem seen_filesAmong (paths : List Path) :
    (filesAmong paths).seen t = paths.filter fun p ↦ (Disk.isFile p).seen t := by
  induction paths with
  | nil => rfl
  | cons p paths ih =>
    rw [filesAmong, (looks_isFile p).seen_bind, (looks_filesAmong paths).seen_bind, ih,
      DiskM.seen_pure, List.filter_cons]

theorem seen_sourceFiles (settings : Settings) (dir : Path) :
    seen (sourceFiles settings dir) t = (t.list dir).mapError .disk >>= fun names ↦
      .ok ((((names.mergeSort fun a b ↦ decide (a ≤ b)).map dir.join).filter
        (hasExtension settings.extension)).filter fun p ↦ (Disk.isFile p).seen t) := by
  rw [sourceFiles, seen_bind (looks_list dir).onDisk, seen_onDisk (looks_list dir), seen_list]
  refine bind_congr fun names ↦ ?_
  rw [seen_lift (looks_filesAmong _), seen_filesAmong]

/-- Names that are sorted and differ stand in their strict order. -/
theorem pairwise_lt_mergeSort {names : List String} (h : names.Nodup) :
    (names.mergeSort fun a b ↦ decide (a ≤ b)).Pairwise (· < ·) := by
  have hle : (names.mergeSort fun a b ↦ decide (a ≤ b)).Pairwise fun a b ↦
      decide (a ≤ b) = true := by
    refine List.pairwise_mergeSort (fun a b c hab hbc ↦ ?_) (fun a b ↦ ?_) names
    · rw [decide_eq_true_iff] at *
      exact String.le_trans hab hbc
    · rw [Bool.or_eq_true, decide_eq_true_iff, decide_eq_true_iff]
      exact String.le_total a b
  have hne := (List.mergeSort_perm names fun a b ↦ decide (a ≤ b)).nodup_iff.2 h
  refine (hle.and hne).imp fun {a b} ⟨hab, hne⟩ ↦ ?_
  rw [decide_eq_true_iff] at hab
  exact String.not_le.1 fun hba ↦ hne (String.le_antisymm hab hba)

/-- The files a directory is read from are its source files, by name. -/
theorem listsSources_of_sourceFiles (ht : t.WellFormed) {settings : Settings} {spot : Spot}
    (hspot : t.Has spot) {files : List Path}
    (h : seen (sourceFiles settings (pathOf spot)) t = .ok files) :
    t.isDirectoryAt spot = true ∧ t.ListsSources settings.extension spot files := by
  rw [seen_sourceFiles] at h
  obtain ⟨names, hlist, h⟩ := Running.exceptBind_eq_ok.1 h
  have hfiles := (Except.ok.inj h).symm
  obtain ⟨spot', hfind, hdir, rfl⟩ := find_of_list (mapError_eq_ok.1 hlist)
  obtain rfl := ht.eq_of_find_pathOf hspot hfind
  refine ⟨hdir, ((t.children spot').mergeSort fun a b ↦ decide (a ≤ b)).filter fun name ↦
    hasExtension settings.extension (pathOf (spot' ++ [name]))
      && (Disk.isFile (pathOf (spot' ++ [name]))).seen t, ?_, fun name ↦ ?_, ?_⟩
  · exact (pairwise_lt_mergeSort (ht.nodup_children spot')).filter _
  · rw [List.mem_filter, List.mem_mergeSort, mem_children, Bool.and_eq_true,
      hasExtension, beq_iff_eq]
    constructor
    · rintro ⟨hhas, hextension, hfile⟩
      obtain ⟨hnode, hfits⟩ := (ht.seen_isFile_pathOf hhas).1 hfile
      rw [ht.extension?_pathOf hhas] at hextension
      exact ⟨⟨hnode, hextension⟩, hfits⟩
    · rintro ⟨hsource, hfits⟩
      rw [ht.extension?_pathOf hsource.has]
      exact ⟨hsource.has, hsource.2, (ht.seen_isFile_pathOf hsource.has).2 ⟨hsource.1, hfits⟩⟩
  · have hjoin : ((t.children spot').mergeSort fun a b ↦ decide (a ≤ b)).map (pathOf spot').join
        = ((t.children spot').mergeSort fun a b ↦ decide (a ≤ b)).map fun name ↦
            pathOf (spot' ++ [name]) := by
      refine List.map_congr_left fun name hname ↦ ?_
      have hhas := mem_children.1 (List.mem_mergeSort.1 hname)
      exact ht.join_pathOf hspot (ht.isName hhas List.mem_concat_self)
    rw [hfiles, hjoin, List.filter_filter, List.filter_map]
    refine congrArg (List.map _) (List.filter_congr fun name _ ↦ ?_)
    exact Bool.and_comm _ _

end Project

end CharacterScript
