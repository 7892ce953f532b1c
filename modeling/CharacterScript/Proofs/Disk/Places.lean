import CharacterScript.Proofs.Computation
import CharacterScript.Proofs.Disk.Looking
import Mathlib.Algebra.Ring.Nat
import Mathlib.Data.List.Basic
import Mathlib.Data.List.Induction

/-!
# Places and paths

In a well-formed tree everything stands in a directory, under a name that a path can spell. Then the
path of a place leads to that place (`FileTree.find_pathOf`), unless it is longer than the disk
takes, and what a path leads to is always there (`FileTree.exists_of_realPath`).

## Two ways to name a thing

A place is a list of names, and a path is a text. The texts that lead to one place are many;
`FileTree.pathOf` is the one that has no dots and no doubled slashes, and it is the answer of
`realPath`. So two real paths lead to one place exactly if they are equal, and this is what a
search for circles may rely on.

A path has a limit on its length, a place has none. Hence a place may be there without being found
under its path, and `FileTree.Fits` says that it is not one of those.
-/

namespace CharacterScript

/-! ## Cutting paths

A path that is put together from names is cut into the same names, since a name has no slash. -/

namespace Path

theorem piecesFrom_nil (piece : List Char) (done : List (List Char)) :
    piecesFrom piece done [] = (piece.reverse :: done).reverse :=
  rfl

theorem piecesFrom_cons (piece : List Char) (done : List (List Char)) (c : Char)
    (cs : List Char) :
    piecesFrom piece done (c :: cs) = if c = '/' then piecesFrom [] (piece.reverse :: done) cs
      else piecesFrom (c :: piece) done cs :=
  rfl

theorem piecesFrom_append (done : List (List Char)) {cs : List Char} (h : '/' ∉ cs)
    (rest : List Char)
    (piece : List Char) :
    piecesFrom piece done (cs ++ rest) = piecesFrom (cs.reverse ++ piece) done rest := by
  induction cs generalizing piece with
  | nil => rfl
  | cons c cs ih =>
    have hc : c ≠ '/' := fun heq ↦ h (heq ▸ List.mem_cons_self)
    rw [List.cons_append, piecesFrom_cons, if_neg hc,
      ih (fun hmem ↦ h (List.mem_cons_of_mem _ hmem)), List.reverse_cons, List.append_assoc]
    rfl

theorem piecesFrom_done (piece : List Char) (done : List (List Char)) (cs : List Char) :
    piecesFrom piece done cs = done.reverse ++ piecesFrom piece [] cs := by
  induction cs generalizing piece done with
  | nil => simp [piecesFrom_nil]
  | cons c cs ih =>
    by_cases hc : c = '/'
    · rw [piecesFrom_cons, if_pos hc, ih, piecesFrom_cons, if_pos hc, ih [] [piece.reverse]]
      simp
    · rw [piecesFrom_cons, if_neg hc, ih, piecesFrom_cons, if_neg hc]

theorem pieces_of_noSlash {cs : List Char} (h : '/' ∉ cs) : pieces cs = [cs] := by
  have hall := piecesFrom_append [] h [] []
  simpa [pieces, piecesFrom_nil] using hall

theorem pieces_append_slash {cs : List Char} (h : '/' ∉ cs) (rest : List Char) :
    pieces (cs ++ '/' :: rest) = cs :: pieces rest := by
  rw [pieces, piecesFrom_append _ h, piecesFrom_cons, if_pos rfl, piecesFrom_done]
  simp [pieces]

/-- Names with slashes between them are cut where they were joined. -/
theorem pieces_intercalate {name : List Char} {names : List (List Char)}
    (h : ∀ n ∈ name :: names, '/' ∉ n) :
    pieces (['/'].intercalate (name :: names)) = name :: names := by
  induction names generalizing name with
  | nil => simpa using pieces_of_noSlash (h name List.mem_cons_self)
  | cons next names ih =>
    have hjoin : ['/'].intercalate (name :: next :: names)
        = name ++ '/' :: ['/'].intercalate (next :: names) := by
      simp [List.intercalate]
    rw [hjoin, pieces_append_slash (h name List.mem_cons_self),
      ih fun n hn ↦ h n (List.mem_cons_of_mem _ hn)]

end Path

namespace FileTree

/-! ## Well-formed trees -/

/-- What a directory can call its entries. -/
def IsName (name : String) : Prop :=
  name ≠ "" ∧ name ≠ "." ∧ name ≠ ".." ∧ '/' ∉ name.toList ∧ '\x00' ∉ name.toList
    ∧ name.utf8ByteSize ≤ maxName

instance (name : String) : Decidable (IsName name) :=
  inferInstanceAs (Decidable (_ ∧ _))

/-- A finite tree of directories and files: one thing at each place, under a name, in a
directory. -/
structure WellFormed (t : FileTree) : Prop where
  /-- There is one thing at each place. -/
  distinct : (t.entries.map (·.1)).Nodup
  /-- The root is not listed. -/
  below : ∀ entry ∈ t.entries, entry.1 ≠ []
  /-- A place is made of names, with no slashes and no dots to follow. -/
  named : ∀ entry ∈ t.entries, ∀ name ∈ entry.1, IsName name
  /-- What is listed stands in a directory. -/
  parent : ∀ entry ∈ t.entries, t.isDirectoryAt entry.1.dropLast = true
  /-- Relative paths start at a directory. -/
  here : t.isDirectoryAt t.here = true

instance (t : FileTree) : Decidable t.WellFormed :=
  decidable_of_iff
    ((t.entries.map (·.1)).Nodup ∧ (∀ entry ∈ t.entries, entry.1 ≠ []) ∧
      (∀ entry ∈ t.entries, ∀ name ∈ entry.1, IsName name) ∧
      (∀ entry ∈ t.entries, t.isDirectoryAt entry.1.dropLast = true) ∧
      t.isDirectoryAt t.here = true)
    ⟨fun ⟨distinct, below, named, parent, here⟩ ↦ ⟨distinct, below, named, parent, here⟩,
      fun h ↦ ⟨h.distinct, h.below, h.named, h.parent, h.here⟩⟩

/-- There is something at a place. -/
def Has (t : FileTree) (spot : Spot) : Prop :=
  (t.node? spot).isSome = true

variable {t : FileTree}

theorem has_root (t : FileTree) : t.Has [] := rfl

theorem has_of_isDirectoryAt {spot : Spot} (h : t.isDirectoryAt spot = true) : t.Has spot := by
  rw [isDirectoryAt] at h
  rw [Has]
  cases hnode : t.node? spot with
  | none =>
    rw [hnode] at h
    cases h
  | some node => rfl

theorem has_iff_mem {spot : Spot} (h : spot ≠ []) :
    t.Has spot ↔ ∃ entry ∈ t.entries, entry.1 = spot := by
  have hne : ¬spot.isEmpty = true := fun he ↦ h (List.isEmpty_iff.1 he)
  rw [Has, node?, if_neg hne, List.lookup_isSome_iff]
  refine exists_congr fun entry ↦ and_congr_right fun _ ↦ ?_
  rw [beq_iff_eq, eq_comm]

namespace WellFormed

theorem isDirectoryAt_dropLast (ht : t.WellFormed) {spot : Spot} (h : t.Has spot)
    (hne : spot ≠ []) :
    t.isDirectoryAt spot.dropLast = true := by
  obtain ⟨entry, hmem, rfl⟩ := (has_iff_mem hne).1 h
  exact ht.parent entry hmem

theorem has_dropLast (ht : t.WellFormed) {spot : Spot} (h : t.Has spot) : t.Has spot.dropLast := by
  by_cases hne : spot = []
  · rw [hne]
    exact has_root t
  · exact has_of_isDirectoryAt (ht.isDirectoryAt_dropLast h hne)

/-- Everything above a place is a directory. -/
theorem isDirectoryAt_above (ht : t.WellFormed) (spot : Spot) {rest : List String}
    (h : t.Has (spot ++ rest)) (hne : rest ≠ []) : t.isDirectoryAt spot = true := by
  induction rest using List.reverseRecOn with
  | nil => exact absurd rfl hne
  | append_singleton rest name ih =>
    have hparent := ht.isDirectoryAt_dropLast h (by simp)
    rw [← List.append_assoc, List.dropLast_concat] at hparent
    by_cases hrest : rest = []
    · rwa [hrest, List.append_nil] at hparent
    · exact ih (has_of_isDirectoryAt hparent) hrest

theorem has_above (ht : t.WellFormed) (spot : Spot) {rest : List String}
    (h : t.Has (spot ++ rest)) :
    t.Has spot := by
  by_cases hne : rest = []
  · rwa [hne, List.append_nil] at h
  · exact has_of_isDirectoryAt (ht.isDirectoryAt_above spot h hne)

theorem isName (ht : t.WellFormed) {spot : Spot} (h : t.Has spot) {name : String}
    (hmem : name ∈ spot) :
    IsName name := by
  obtain ⟨entry, hentry, rfl⟩ := (has_iff_mem (List.ne_nil_of_mem hmem)).1 h
  exact ht.named entry hentry name hmem

end WellFormed

/-! ## Walking

A walk is followed name by name, and each step lands at something that is in the tree. -/

theorem walk_name {spot : Spot} {name : String} (hname : IsName name)
    (hdir : t.isDirectoryAt spot = true) (h : t.Has (spot ++ [name])) (rest : List String) :
    t.walk spot (name :: rest) = t.walk (spot ++ [name]) rest := by
  obtain ⟨hempty, hdot, hdots, -, -, hsize⟩ := hname
  have hsome : (t.node? (spot ++ [name])).isSome = true := h
  simp [walk, hdir, hempty, hdot, hdots, Nat.not_lt.2 hsize, hsome]

/-- The names down to a place lead to it. -/
theorem WellFormed.walk_names (ht : t.WellFormed) (spot : Spot) {names : List String}
    (h : t.Has (spot ++ names)) : t.walk spot names = .ok (spot ++ names) := by
  induction names generalizing spot with
  | nil => rw [walk, List.append_nil]
  | cons name names ih =>
    have hnext : t.Has (spot ++ [name] ++ names) := by rwa [List.append_assoc]
    rw [walk_name (ht.isName h (by simp)) (ht.isDirectoryAt_above spot h (by simp))
      (ht.has_above _ hnext), ih _ hnext, List.append_assoc]
    rfl

/-- What a walk ends at is there. -/
theorem WellFormed.has_of_walk (ht : t.WellFormed) {spot spot' : Spot} {pieces : List String}
    (h : t.Has spot) (hwalk : t.walk spot pieces = .ok spot') : t.Has spot' := by
  induction pieces generalizing spot with
  | nil =>
    cases hwalk
    exact h
  | cons piece pieces ih =>
    rw [walk] at hwalk
    split at hwalk
    · cases hwalk
    split at hwalk
    · exact ih h hwalk
    split at hwalk
    · exact ih (ht.has_dropLast h) hwalk
    split at hwalk
    · cases hwalk
    split at hwalk
    next hsome => exact ih hsome hwalk
    · cases hwalk

theorem WellFormed.has_startOf (ht : t.WellFormed) (p : Path) : t.Has (t.startOf p) := by
  rw [startOf]
  split
  · exact has_root t
  · exact has_of_isDirectoryAt ht.here

/-- What a path leads to is there. -/
theorem WellFormed.exists_of_realPath (ht : t.WellFormed) {p q : Path} (h : t.realPath p = .ok q) :
    ∃ spot, t.Has spot ∧ q = pathOf spot := by
  rw [realPath] at h
  obtain ⟨all, hall, h⟩ := Running.exceptBind_eq_ok.1 h
  obtain ⟨spot, hwalk, h⟩ := Running.exceptBind_eq_ok.1 h
  cases h
  exact ⟨spot, ht.has_of_walk (ht.has_startOf p) hwalk, rfl⟩

/-! ## Paths of places -/

theorem toList_pathOf (spot : Spot) :
    (pathOf spot).text.toList = '/' :: ['/'].intercalate (spot.map String.toList) := by
  simp [pathOf]

theorem isAbsolute_pathOf (spot : Spot) : (pathOf spot).isAbsolute = true := by
  rw [Path.isAbsolute, toList_pathOf]
  rfl

theorem isEmpty_pathOf (spot : Spot) : (pathOf spot).text.isEmpty = false := by
  rw [Bool.eq_false_iff, Ne, String.isEmpty_iff]
  intro hempty
  have hlist := toList_pathOf spot
  rw [hempty] at hlist
  cases hlist

theorem intercalate_concat {names : List (List Char)} (hne : names ≠ []) (name : List Char) :
    ['/'].intercalate (names ++ [name]) = ['/'].intercalate names ++ '/' :: name := by
  induction names with
  | nil => exact absurd rfl hne
  | cons first names ih =>
    cases names with
    | nil => simp
    | cons second names =>
      rw [List.cons_append, List.cons_append, List.intercalate_cons_cons, ← List.cons_append,
        ih (List.cons_ne_nil _ _), List.intercalate_cons_cons]
      simp

theorem nul_notMem_intercalate {names : List (List Char)} (h : ∀ name ∈ names, '\x00' ∉ name) :
    '\x00' ∉ ['/'].intercalate names := by
  induction names with
  | nil => simp
  | cons first names ih =>
    have hfirst := h first List.mem_cons_self
    cases names with
    | nil => simpa using hfirst
    | cons second names =>
      have hrest := ih fun name hname ↦ h name (List.mem_cons_of_mem _ hname)
      rw [List.intercalate_cons_cons]
      simp only [List.mem_append, not_or]
      exact ⟨⟨hfirst, by decide⟩, hrest⟩

/-- Names of places are cut where they were joined. -/
theorem pieces_names {spot : Spot} (h : ∀ name ∈ spot, IsName name) (hne : spot ≠ []) :
    Path.pieces (['/'].intercalate (spot.map String.toList)) = spot.map String.toList := by
  have hslash : ∀ name ∈ spot.map String.toList, '/' ∉ name := by
    intro name hname
    obtain ⟨s, hs, rfl⟩ := List.mem_map.1 hname
    exact (h s hs).2.2.2.1
  cases spot with
  | nil => exact absurd rfl hne
  | cons first spot => exact Path.pieces_intercalate hslash

/-- The pieces of a path made of names are the names, after the slash at the start. -/
theorem allPieces_of_names {spot : Spot} (h : ∀ name ∈ spot, IsName name) :
    allPieces (pathOf spot) = .ok ("" :: if spot = [] then [""] else spot) := by
  have hnul : '\x00' ∉ (pathOf spot).text.toList := by
    rw [toList_pathOf, List.mem_cons, not_or]
    refine ⟨by decide, nul_notMem_intercalate fun name hname ↦ ?_⟩
    obtain ⟨s, hs, rfl⟩ := List.mem_map.1 hname
    exact (h s hs).2.2.2.2.1
  rw [allPieces, isEmpty_pathOf, if_neg Bool.false_ne_true,
    if_neg (fun hmem ↦ hnul (List.contains_iff_mem.1 hmem)), toList_pathOf]
  have hcut (cs : List Char) : Path.pieces ('/' :: cs) = [] :: Path.pieces cs :=
    @Path.pieces_append_slash [] List.not_mem_nil cs
  rw [hcut]
  by_cases hne : spot = []
  · rw [if_pos hne, hne]
    rfl
  · rw [if_neg hne, pieces_names h hne]
    simp [Function.comp_def]

theorem WellFormed.allPieces_pathOf (ht : t.WellFormed) {spot : Spot} (h : t.Has spot) :
    allPieces (pathOf spot) = .ok ("" :: if spot = [] then [""] else spot) :=
  allPieces_of_names fun _ hname ↦ ht.isName h hname

/-- The path of a place leads to it. -/
theorem WellFormed.walk_pathOf (ht : t.WellFormed) {spot : Spot} (h : t.Has spot) :
    t.walk (t.startOf (pathOf spot)) ("" :: if spot = [] then [""] else spot) = .ok spot := by
  rw [startOf, if_pos (isAbsolute_pathOf spot)]
  by_cases hne : spot = []
  · rw [if_pos hne, hne]
    rfl
  · rw [if_neg hne, walk]
    exact ht.walk_names [] h

theorem WellFormed.realPath_pathOf (ht : t.WellFormed) {spot : Spot} (h : t.Has spot) :
    t.realPath (pathOf spot) = .ok (pathOf spot) := by
  rw [realPath, ht.allPieces_pathOf h]
  show (t.walk _ _ >>= fun spot ↦ pure (pathOf spot)) = _
  rw [ht.walk_pathOf h]
  rfl

/-- The length of a path that the disk takes. -/
def Fits (p : Path) : Prop :=
  p.text.utf8ByteSize ≤ maxPath

instance (p : Path) : Decidable (Fits p) :=
  inferInstanceAs (Decidable (_ ≤ _))

theorem pieces_of_fits {p : Path} (h : Fits p) : pieces p = allPieces p := by
  rw [pieces]
  cases allPieces p with
  | error e => rfl
  | ok all =>
    show (if maxPath < p.text.utf8ByteSize then _ else _) = _
    rw [if_neg (Nat.not_lt.2 h)]
    rfl

theorem fits_of_find {p : Path} {spot : Spot} (h : t.find p = .ok spot) : Fits p := by
  rw [find] at h
  obtain ⟨all, hall, -⟩ := Running.exceptBind_eq_ok.1 h
  rw [pieces] at hall
  obtain ⟨all', -, hall⟩ := Running.exceptBind_eq_ok.1 hall
  by_contra hlong
  rw [Fits, Nat.not_le] at hlong
  rw [if_pos hlong] at hall
  cases hall

/-- The path of a place leads to it if it is not too long. -/
theorem WellFormed.find_pathOf (ht : t.WellFormed) {spot : Spot} (h : t.Has spot)
    (hfits : Fits (pathOf spot)) : t.find (pathOf spot) = .ok spot := by
  rw [find, pieces_of_fits hfits, ht.allPieces_pathOf h]
  exact ht.walk_pathOf h

theorem WellFormed.read_pathOf (ht : t.WellFormed) {spot : Spot} {data : ByteArray} {modified : Int}
    (h : t.node? spot = some (.file data modified)) (hfits : Fits (pathOf spot)) :
    t.read (pathOf spot) = .ok data := by
  have hspot : t.Has spot := by
    rw [Has, h]
    rfl
  refine Running.exceptBind_eq_ok.2 ⟨spot, ht.find_pathOf hspot hfits, ?_⟩
  rw [h]
  rfl

theorem WellFormed.eq_of_find_pathOf (ht : t.WellFormed) {spot spot' : Spot} (h : t.Has spot)
    (hfind : t.find (pathOf spot) = .ok spot') : spot' = spot := by
  rw [ht.find_pathOf h (fits_of_find hfind)] at hfind
  exact (Except.ok.inj hfind).symm

/-- The path of a place is that of its directory, a slash unless the directory is the root, and its
name. -/
theorem text_pathOf_concat (spot : Spot) (name : String) :
    (pathOf (spot ++ [name])).text = (pathOf spot).text ++ (if spot = [] then ""
      else "/") ++ name := by
  refine String.toList_inj.1 ?_
  by_cases hne : spot = []
  · rw [if_pos hne, hne]
    simp [pathOf]
  · have hmap : spot.map String.toList ≠ [] := by rwa [Ne, List.map_eq_nil_iff]
    rw [if_neg hne, toList_pathOf, List.map_append, List.map_singleton, intercalate_concat hmap,
      String.toList_append, String.toList_append, toList_pathOf]
    simp

theorem Fits.of_concat {spot : Spot} {name : String} (h : Fits (pathOf (spot ++ [name]))) :
    Fits (pathOf spot) := by
  rw [Fits, text_pathOf_concat, String.utf8ByteSize_append, String.utf8ByteSize_append] at h
  rw [Fits]
  omega

theorem getLast?_pathOf (spot : Spot) {last : String} (h : IsName last) :
    (pathOf (spot ++ [last])).text.toList.getLast? ≠ some '/' := by
  obtain ⟨hempty, -, -, hslash, -⟩ := h
  have hne : last.toList ≠ [] := fun hnil ↦ hempty (String.toList_eq_nil_iff.1 hnil)
  rw [text_pathOf_concat, String.toList_append, List.getLast?_append,
    List.getLast?_eq_some_getLast hne, Option.some_or]
  exact fun hlast ↦ hslash (Option.some.inj hlast ▸ List.getLast_mem hne)

/-- A name is put behind the path of its directory. -/
theorem WellFormed.join_pathOf (ht : t.WellFormed) {spot : Spot} (h : t.Has spot) {name : String}
    (hname : IsName name) : (pathOf spot).join name = pathOf (spot ++ [name]) := by
  have hrelative : ¬(Path.mk name).isAbsolute = true := by
    intro habs
    rw [Path.isAbsolute, beq_iff_eq] at habs
    exact hname.2.2.2.1 (List.mem_of_head? habs)
  rw [Path.join, if_neg hrelative, isEmpty_pathOf, Bool.false_or]
  obtain rfl | ⟨above, last, rfl⟩ := List.eq_nil_or_concat' spot
  · simp [pathOf]
  · have hlast := getLast?_pathOf above (ht.isName h List.mem_concat_self)
    have htext := text_pathOf_concat (above ++ [last]) name
    rw [if_neg (by simp)] at htext
    rw [if_neg (by simpa using hlast)]
    exact congrArg Path.mk htext.symm

/-! ## File names -/

theorem isNamed_of_isName {name : String} (h : IsName name) : Path.isNamed name.toList = true := by
  have hempty : name.toList ≠ [] := fun hnil ↦ h.1 (String.toList_eq_nil_iff.1 hnil)
  have hdot : name.toList ≠ ['.'] := fun heq ↦ h.2.1 (String.toList_inj.1 heq)
  simp [Path.isNamed, hempty, hdot]

theorem ofPiece_of_isName {name : String} (h : IsName name) :
    Path.Part.ofPiece name.toList = .named name := by
  have hdots : name.toList ≠ ['.', '.'] := fun heq ↦ h.2.2.1 (String.toList_inj.1 heq)
  rw [Path.Part.ofPiece, if_neg hdots, String.ofList_toList]

theorem fileName?_of_isName {name : String} (h : IsName name) :
    (Path.mk name).fileName? = some name := by
  have hcut : (Path.mk name).cut = ([], Path.pieces name.toList) := by
    have hslash := h.2.2.2.1
    rw [Path.cut]
    split
    next rest heq => exact absurd (heq ▸ List.mem_cons_self) hslash
    next heq => exact absurd (String.toList_inj.1 heq) h.2.1
    next rest heq => exact absurd (heq ▸ List.mem_cons_of_mem _ List.mem_cons_self) hslash
    next => rfl
  rw [Path.fileName?, Path.parts, hcut, Path.pieces_of_noSlash h.2.2.2.1]
  simp [isNamed_of_isName h, ofPiece_of_isName h]

theorem WellFormed.fileName?_pathOf (ht : t.WellFormed) {spot : Spot} {name : String}
    (h : t.Has (spot ++ [name])) : (pathOf (spot ++ [name])).fileName? = some name := by
  have hcut : (pathOf (spot ++ [name])).cut = (['/'], (spot ++ [name]).map String.toList) := by
    rw [Path.cut, toList_pathOf]
    exact congrArg (['/'], ·) (pieces_names (fun _ hname ↦ ht.isName h hname) (by simp))
  have hname := ht.isName h List.mem_concat_self
  have hparts : (pathOf (spot ++ [name])).parts =
      .root :: ((spot.map String.toList).filter Path.isNamed).map Path.Part.ofPiece ++
        [.named name] := by
    rw [Path.parts, hcut]
    simp [isNamed_of_isName hname, ofPiece_of_isName hname]
  rw [Path.fileName?, hparts, List.getLast?_concat]

/-- The extension of what is at a place is that of its name. -/
theorem WellFormed.extension?_pathOf (ht : t.WellFormed) {spot : Spot} {name : String}
    (h : t.Has (spot ++ [name])) :
    (pathOf (spot ++ [name])).extension? = (Path.mk name).extension? := by
  rw [Path.extension?, ht.fileName?_pathOf h, Path.extension?,
    fileName?_of_isName (ht.isName h List.mem_concat_self)]

/-- The length of the path of a place: every name comes with a slash. -/
theorem utf8ByteSize_pathOf {spot : Spot} (h : spot ≠ []) :
    (pathOf spot).text.utf8ByteSize = (spot.map fun name ↦ name.utf8ByteSize + 1).sum := by
  induction spot using List.reverseRecOn with
  | nil => exact absurd rfl h
  | append_singleton spot name ih =>
    have hslash : "/".utf8ByteSize = 1 := rfl
    rw [text_pathOf_concat, String.utf8ByteSize_append, String.utf8ByteSize_append, List.map_append,
      List.sum_append, List.map_singleton, List.sum_singleton]
    by_cases hne : spot = []
    · rw [if_pos hne, hne]
      show "/".utf8ByteSize + 0 + name.utf8ByteSize = 0 + (name.utf8ByteSize + 1)
      omega
    · rw [if_neg hne, ih hne]
      omega

end FileTree

end CharacterScript
