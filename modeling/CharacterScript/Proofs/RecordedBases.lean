import CharacterScript.Proofs.BaseLines
import CharacterScript.Proofs.Chains
import CharacterScript.Proofs.Continuity
import CharacterScript.Proofs.Disk.Siblings
import CharacterScript.Proofs.Grammar.Files
import CharacterScript.Proofs.Positions.Tokens
import CharacterScript.Workspace

/-!
# Recorded bases

A layer records the base that the entry file of its directory names. The record is made from the
items of the stitched text, and of these only the directives that lie in the entry file count
(`Layer.directive?_eq_findSome?`, `Layer.directive?_stitch`). So where every file can be read alone,
what is recorded is the first base directive among the tokens of the entry file by itself
(`Project.exists_recorded_of_chain`).

## Two readings of one file

The directory below in the chain was found by scanning the lines of the same file. Whether the two
are one is a question about that file alone, and `Project.inStep_iff` answers it.

## From a layer to a file

A record is made when a layer is compiled, and it stays: later layers add records of their own. So
what a program at the end of a chain says of a layer is what its items say. The items of a
stitched text are those of its files, at other places, and only the ones in the entry file are
asked for. With that, the question is about the tokens of one file.
-/

namespace CharacterScript

open Running

/-! ## Directives among the tokens -/

namespace Layer

variable {l : Layer} {source : String} {ts : List Lexeme} {items : List Item}

/-- The path of a directive of a kind, if the token is one that counts. -/
def honoured? (l : Layer) (d : PathDirective) (t : Lexeme) : Option String :=
  match t.token with
  | .directive d' path => if d' = d && l.honours t.span then some path else none
  | _ => none

/-- The path of a directive of a kind, if the item is one that counts. -/
def honouredItem? (l : Layer) (d : PathDirective) : Item → Option String
  | .directive d' path span => if d' = d && l.honours span then some path else none
  | _ => none

/-- Every directive is an item of its own. -/
theorem findSome?_lexemes (l : Layer) (d : PathDirective) (source : String) (p : ItemPhrase) :
    p.lexemes.findSome? (l.honoured? d) = l.honouredItem? d (p.tree source) := by
  obtain ⟨d', path, span, rfl⟩ | hinner := p.directive_or_inner
  · rw [ItemPhrase.lexemes, List.findSome?_singleton]
    rfl
  · have hnone : p.lexemes.findSome? (l.honoured? d) = none := by
      refine List.findSome?_eq_none_iff.2 fun t ht ↦ ?_
      rw [honoured?]
      split
      next d' path htoken => exact absurd htoken ((Token.isInner_iff.1 (hinner t ht)).2 d' path)
      · rfl
    rw [hnone]
    cases p with
    | directive d' path span => exact absurd (hinner _ List.mem_cons_self) Bool.false_ne_true
    | global | define | callable => rfl

/-- So items and tokens have the same directives. -/
theorem directive?_eq_findSome? (l : Layer) (d : PathDirective) (hlex : lex source = .ok ts)
    (hparse : parseFile source ts = .ok items) :
      l.directive? d items = ts.findSome? (l.honoured? d) := by
  obtain ⟨body, rfl, hbody⟩ := (lex_tiles hlex).ends
  obtain ⟨ps, rfl, -, rfl⟩ := (parseFile_eq_ok_iff fun t ht ↦ (hbody t ht).1).1 hparse
  have hends : l.honoured? d ⟨.eof, ⟨source.utf8ByteSize, source.utf8ByteSize⟩⟩ = none := rfl
  have hitems : l.directive? d (ps.map (ItemPhrase.tree source))
      = (ps.map (ItemPhrase.tree source)).findSome? (l.honouredItem? d) := rfl
  rw [List.findSome?_append, List.findSome?_singleton, hends, Option.or_none, hitems]
  clear hlex hparse hbody hitems
  induction ps with
  | nil => rfl
  | cons p ps ih =>
    rw [List.map_cons, List.findSome?_cons, ih, List.flatMap_cons, List.findSome?_append,
      findSome?_lexemes]
    cases l.honouredItem? d (p.tree source) <;> rfl

/-! ## Directives of a stitched text

A position knows its file, and the directives of other files are sorted out by that. -/

open SourceMap

private theorem findSome?_congr {α β : Type} {f g : α → Option β} {xs : List α}
    (h : ∀ x ∈ xs, f x = g x) : xs.findSome? f = xs.findSome? g := by
  induction xs with
  | nil => rfl
  | cons x xs ih =>
    obtain ⟨hx, hxs⟩ := List.forall_mem_cons.1 h
    rw [List.findSome?_cons, List.findSome?_cons, hx, ih hxs]

/-- The base that a file names by itself. -/
def ownBase? (text : String) : Option String :=
  (tokens text).findSome? Lexeme.base?

/-- A place in a file of a stitched text counts if the file has the name of the entry file. -/
theorem honours_stitch {before after : List (String × String)} {path content entry : String}
    (h : ∀ file ∈ before ++ (path, content) :: after, Standalone file)
    (hmap : l.map = .ofSource (stitch (before ++ (path, content) :: after)))
    (hentry : l.entryFile = some entry) {span : Span} (hstart : span.start ≤ span.stop)
    (hstop : span.stop ≤ content.utf8ByteSize) :
    l.honours (span.rebase 0 (byteLength (before.flatMap chunk) + byteLength (header path)))
      = ((Path.mk path).fileName? == some entry) := by
  have hmoved : span.rebase 0 (byteLength (before.flatMap chunk) + byteLength (header path))
      = span.later (byteLength (before.flatMap chunk ++ header path)) := by
    rw [Span.rebase, rebase, rebase, Span.later, byteLength_append, Nat.sub_zero, Nat.sub_zero,
      Nat.add_comm span.start, Nat.add_comm span.stop]
  have hfile := file_position_stitch (fun file hfile ↦ (h file hfile).toStitchable) hstart hstop
  rw [honours, hentry, pos, hmap, hmoved, hfile]

/-- Of the tokens of a file, a base directive counts if the file has the name of the entry file. -/
theorem findSome?_content {before after : List (String × String)} {path content entry : String}
    (h : ∀ file ∈ before ++ (path, content) :: after, Standalone file)
    (hmap : l.map = .ofSource (stitch (before ++ (path, content) :: after)))
    (hentry : l.entryFile = some entry) :
    ((tokens content).map (Lexeme.rebase 0
      (byteLength (before.flatMap chunk) + byteLength (header path)))).findSome? (l.honoured? .base)
      = if (Path.mk path).fileName? = some entry then ownBase? content else none := by
  obtain ⟨ts, hlex⟩ := (h (path, content) (by simp)).lexes
  have htokens := (lex_eq_tokens hlex).2
  have hone : ∀ t ∈ tokens content, l.honoured? .base (t.rebase 0
      (byteLength (before.flatMap chunk) + byteLength (header path)))
        = if (Path.mk path).fileName? = some entry then t.base? else none := by
    intro t ht
    obtain ⟨-, hstart, hstop⟩ := htokens t ht
    have hhonours := honours_stitch h hmap hentry hstart hstop
    obtain ⟨token, span⟩ := t
    cases token with
    | directive d name =>
      rw [Lexeme.rebase, honoured?]
      dsimp only
      rw [hhonours]
      cases d with
      | base => simp [Lexeme.base?]
      | file | output => simp [Lexeme.base?]
    | _ => simp [honoured?, Lexeme.rebase, Lexeme.base?]
  rw [List.findSome?_map]
  refine (findSome?_congr hone).trans ?_
  split
  · rfl
  · exact List.findSome?_eq_none_iff.2 fun _ _ ↦ rfl

theorem findSome?_stitchedTokens {entry : String} (hentry : l.entryFile = some entry)
    {before after : List (String × String)} (h : ∀ file ∈ before ++ after, Standalone file)
    (hmap : l.map = .ofSource (stitch (before ++ after))) :
    (stitchedTokens (byteLength (before.flatMap chunk)) after).findSome? (l.honoured? .base)
      = after.findSome? fun file ↦
          if (Path.mk file.1).fileName? = some entry then ownBase? file.2 else none := by
  induction after generalizing before with
  | nil => rfl
  | cons file after ih =>
    obtain ⟨path, content⟩ := file
    have hmarker : ∀ span, l.honoured? .base ⟨.directive .file path, span⟩ = none := fun span ↦ rfl
    have hbehind := @ih (before ++ [(path, content)]) (by simpa using h) (by simpa using hmap)
    rw [List.flatMap_append, byteLength_append, List.flatMap_singleton] at hbehind
    rw [stitchedTokens, List.findSome?_cons, hmarker, List.findSome?_append,
      findSome?_content h hmap hentry, hbehind, List.findSome?_cons]
    dsimp only
    cases (if (Path.mk path).fileName? = some entry then ownBase? content else none) <;> rfl

/-- The base of a stitched text is the base that a file with the name of the entry file names by
itself. -/
theorem directive?_stitch {entry : String} (hentry : l.entryFile = some entry)
    {files : List (String × String)} (h : ∀ file ∈ files, Standalone file)
    (hmap : l.map = .ofSource (stitch files)) (hitems : ReadsAs (stitch files) items) :
    l.directive? .base items = files.findSome? fun file ↦
      if (Path.mk file.1).fileName? = some entry then ownBase? file.2 else none := by
  obtain ⟨ts, hlex, hparse⟩ := hitems
  rw [directive?_eq_findSome? l .base hlex hparse]
  rw [lex_stitch h] at hlex
  cases hlex
  exact @findSome?_stitchedTokens l entry hentry [] files h hmap

/-! ## What is recorded

Records are made while items are declared, and neither expanding nor lowering touches them. -/

theorem layers_declareAll {some : List Item} {p q : Program} (h : l.declareAll some p = .ok () q) :
    q.layers = p.layers := by
  induction some generalizing p with
  | nil => exact (pure_eq_ok.1 h).2 ▸ rfl
  | cons i rest ih =>
    obtain ⟨⟨⟩, r, hi, hrest⟩ := bind_eq_ok.1 h
    rw [ih hrest]
    cases declareItem_declared hi <;> rfl

theorem layers_lowerAll {bodies : List (Owner × Block)} {p q : Program}
    (h : l.lowerAll bodies p = .ok () q) : q.layers = p.layers := by
  induction bodies generalizing p with
  | nil => exact (pure_eq_ok.1 h).2 ▸ rfl
  | cons entry rest ih =>
    obtain ⟨owner, body⟩ := entry
    obtain ⟨id, r, hbody, hrest⟩ := bind_eq_ok.1 h
    rw [modify_bind] at hrest
    obtain ⟨root, new, hafter, -⟩ := after_lowerBody l owner body p
    rw [after_of_ok hbody] at hafter
    rw [ih hrest, r.setBody_layers owner id, hafter]
    rfl

/-- A layer is recorded once. -/
theorem layers_compile {p q : Program} (h : l.compile items p = .ok () q) :
    q.layers = p.layers.push (l.info items) := by
  obtain ⟨declared, defines, hdeclared, -, hlower⟩ := compile_stages h
  rw [layers_lowerAll hlower, expanded, layers_declareAll hdeclared]

end Layer

/-- What a directory is read as when it is compiled as the layer at a depth. -/
def Recorded (vocabulary : Vocabulary) (entryFile : Option String) (source : String) (depth : Nat)
    (info : LayerInfo) : Prop :=
  ∃ items, ReadsAs source items ∧
    info = Layer.info ⟨vocabulary, .ofSource source, depth, entryFile⟩ items

namespace Workspace

/-- The layers of a chain are recorded in order. -/
theorem layers_compileDirs {images out : List (List UInt8)} {s : Session} {dirs : List ScriptDir}
    {program : Program} (hs : s.program.Sound)
    (h : compileDirs images s dirs = .ok (program, out)) :
    ∃ infos, program.layers.toList = s.program.layers.toList ++ infos ∧ infos.length = dirs.length ∧
      ∀ i d info, dirs[i]? = some d → infos[i]? = some info →
        Recorded s.vocabulary s.entryFile d.source (s.program.depth + i + 1) info := by
  induction dirs generalizing images s with
  | nil =>
    cases h
    exact ⟨[], by simp, rfl, nofun⟩
  | cons d dirs ih =>
    rw [compileDirs] at h
    split at h
    · cases h
    next depth s' hlayer =>
      split at h
      · cases h
      next bytes himage =>
        obtain ⟨-, -, items, hitems, hcompile⟩ := Session.compileLayer_ok hlayer
        obtain ⟨hsound, hdepth⟩ := Session.keeps_compileLayer hs d.source
        obtain ⟨hvocabulary, hentry⟩ := s.settings_compileLayer d.source
        rw [hlayer] at hsound hdepth hvocabulary hentry
        obtain ⟨infos, hlayers, hlength, hinfos⟩ := ih hsound h
        refine ⟨(s.nextLayer d.source).info items :: infos, ?_, by simp [hlength],
          fun i d' info hd hinfo ↦ ?_⟩
        · rw [hlayers, Layer.layers_compile hcompile, Array.toList_push, List.append_assoc]
          rfl
        · cases i with
          | zero =>
            cases hd
            cases hinfo
            exact ⟨items, hitems, rfl⟩
          -- the rest starts one layer deeper, with the same vocabulary and entry file
          | succ i =>
            have hrest := hinfos i d' info hd hinfo
            dsimp only at hdepth hvocabulary hentry
            rwa [hdepth, hvocabulary, hentry,
              show s.program.depth + 1 + i + 1 = s.program.depth + (i + 1) + 1 by omega] at hrest

/-- The directory at an index is the layer one deeper. -/
theorem layer?_compileChain {settings : Settings} {v : Vocabulary} {dirs : List ScriptDir}
    {compiled : Compiled} (h : compileChain settings v dirs = .ok compiled) {i : Nat}
    {d : ScriptDir}
    (hd : dirs[i]? = some d) : ∃ info, compiled.program.layer? (i + 1) = some info ∧
      Recorded v (some settings.entryFile) d.source (i + 1) info := by
  obtain ⟨⟨program, images⟩, hdirs, hcompiled⟩ := exceptBind_eq_ok.1 h
  cases hcompiled
  obtain ⟨infos, hlayers, hlength, hinfos⟩ := layers_compileDirs Program.sound_empty hdirs
  have hrecorded : ∀ (j : Nat) (hj : j < infos.length) (d' : ScriptDir), dirs[j]? = some d' →
      Recorded v (some settings.entryFile) d'.source (j + 1) infos[j] := by
    intro j hj d' hd'
    have hthere := hinfos j d' _ hd' (List.getElem?_eq_getElem hj)
    rwa [show (Session.new v (some settings.entryFile)).program.depth + j + 1 = j + 1 by
      rw [Nat.add_left_inj]; exact Nat.zero_add j] at hthere
  have hdepth : ∀ (j : Nat) (hj : j < infos.length), infos[j].depth = j + 1 := by
    intro j hj
    obtain ⟨items, -, hinfo⟩ := hrecorded j hj _ (List.getElem?_eq_getElem (hlength ▸ hj))
    rw [hinfo]
    rfl
  have hi : i < infos.length := hlength ▸ (List.getElem?_eq_some_iff.1 hd).1
  refine ⟨infos[i], ?_, hrecorded i hi d hd⟩
  have hall : program.layers.toList = infos := hlayers
  rw [Program.layer?, ← Array.find?_toList, hall, List.find?_eq_some_iff_getElem]
  refine ⟨by simp [hdepth i hi], i, hi, rfl, fun j hj ↦ ?_⟩
  simp [hdepth j (hj.trans hi), hj.ne]

end Workspace

/-! ## Files of a chain

The entry file is among the source files if its name has their extension and the disk can be asked
about its path. Only then is it compiled at all. -/

namespace Project

open FileTree SourceMap

variable {t : FileTree} {settings : Settings}

/-- Every directory of a chain has been read. -/
theorem exists_readDir_of_mem {steps : Nat} {visited : List Path} {dir : Path}
    {chain : List ScriptDir}
    (h : seen (loadFrom settings steps visited dir) t = .ok chain) {d : ScriptDir}
    (hd : d ∈ chain) :
    seen (readDir settings d.dir d.base) t = .ok d := by
  induction steps generalizing visited dir chain with
  | zero => cases h
  | succ steps ih =>
    obtain ⟨real, text, below, own, -, -, -, hbelow, hown, rfl⟩ := loadFrom_eq_ok h
    obtain hd | hd := List.mem_append.1 hd
    · cases htext : scanBase? text with
      | none =>
        rw [htext] at hbelow
        cases hbelow
        cases hd
      | some base =>
        rw [htext] at hbelow
        exact ih hbelow hd
    · obtain rfl := List.mem_singleton.1 hd
      obtain ⟨hdir, hbase, -⟩ := readDir_eq_ok hown
      rwa [hdir, hbase]

/-- What a directory holds is stitched together from its files. -/
theorem exists_contents {dir : Path} {base : Option String} {d : ScriptDir}
    (h : seen (readDir settings dir base) t = .ok d) :
    ∃ contents, d.source = stitch contents ∧ seen (readAll d.files) t = .ok contents := by
  rw [readDir, seen_bind (looks_sourceFiles settings dir)] at h
  obtain ⟨files, -, h⟩ := exceptBind_eq_ok.1 h
  rw [seen_bind (looks_readAll files)] at h
  obtain ⟨contents, hcontents, h⟩ := exceptBind_eq_ok.1 h
  cases h
  exact ⟨contents, rfl, hcontents⟩

theorem mem_readAll {paths : List Path} {contents : List (String × String)}
    (h : seen (readAll paths) t = .ok contents) (file : String × String) :
    file ∈ contents ↔ ∃ p ∈ paths, file.1 = p.text ∧ seen (Disk.readText p) t = .ok file.2 := by
  induction paths generalizing contents with
  | nil =>
    cases h
    simp
  | cons p paths ih =>
    rw [readAll, seen_bind (looks_readText p).onDisk, seen_onDisk (looks_readText p)] at h
    obtain ⟨content, hcontent, h⟩ := exceptBind_eq_ok.1 h
    rw [seen_bind (looks_readAll paths)] at h
    obtain ⟨rest, hrest, h⟩ := exceptBind_eq_ok.1 h
    cases h
    rw [mapError_eq_ok] at hcontent
    rw [List.mem_cons, ih hrest, List.exists_mem_cons_iff, hcontent, Except.ok.injEq]
    exact or_congr (Prod.ext_iff.trans (and_congr_right fun _ ↦ eq_comm)) Iff.rfl

/-- The file of a directory that a name of the settings means. -/
structure IsEntryName (settings : Settings) : Prop where
  /-- It is a name, not a path. -/
  isName : FileTree.IsName settings.entryFile
  /-- It has the extension of a source file. -/
  isSource : (Path.mk settings.entryFile).extension? = some settings.extension

/-- The files of a directory can each be read without the others. -/
def FilesStandalone (t : FileTree) (d : ScriptDir) : Prop :=
  ∀ p ∈ d.files, ∀ text, seen (Disk.readText p) t = .ok text → Standalone (p.text, text)

private theorem findSome?_eq_of_forall {α β : Type} {f : α → Option β} {xs : List α} {v : Option β}
    (hall : ∀ x ∈ xs, f x = v ∨ f x = none) (hone : ∃ x ∈ xs, f x = v) : xs.findSome? f = v := by
  obtain ⟨x, hx, hv⟩ := hone
  cases hfound : xs.findSome? f with
  | none => rw [← hv, List.findSome?_eq_none_iff.1 hfound x hx]
  | some b =>
    obtain ⟨y, hy, hb⟩ := List.exists_of_findSome?_eq_some hfound
    obtain hy | hy := hall y hy
    · rw [← hy, hb]
    · rw [hy] at hb
      cases hb

theorem fits_of_read {p : Path} {data : ByteArray} (h : t.read p = .ok data) : Fits p := by
  obtain ⟨spot, hfind, -⟩ := exceptBind_eq_ok.1 h
  exact fits_of_find hfind

/-- The entry file is one of the files of its directory. -/
theorem entry_mem_files (ht : t.WellFormed) (hname : IsEntryName settings) {d : ScriptDir}
    {spot : Spot}
    (hspot : t.isDirectoryAt spot = true) (hdir : d.dir = pathOf spot)
    (hfiles : t.ListsSources settings.extension spot d.files) {text : String}
    (hentry : EntryText t settings d.dir text) :
    pathOf (spot ++ [settings.entryFile]) ∈ d.files ∧
      (pathOf (spot ++ [settings.entryFile])).fileName? = some settings.entryFile ∧
      seen (Disk.readText (pathOf (spot ++ [settings.entryFile]))) t = .ok text := by
  have hthere := has_of_isDirectoryAt hspot
  have hpath : entryFile d.dir settings.entryFile = pathOf (spot ++ [settings.entryFile]) := by
    rw [hdir]
    exact ht.join_pathOf hthere hname.isName
  obtain ⟨data, hdata, htext⟩ := hentry
  rw [hpath] at hdata
  obtain ⟨modified, hnode⟩ := ht.file_of_read hthere hname.isName hdata
  have hsource : t.IsSource settings.extension spot settings.entryFile :=
    ⟨⟨data, modified, hnode⟩, hname.isSource⟩
  obtain ⟨names, -, hnames, hlist⟩ := hfiles
  refine ⟨?_, ht.fileName?_pathOf hsource.has, seen_readText.2 ⟨data, hdata, htext⟩⟩
  rw [hlist]
  exact List.mem_map_of_mem ((hnames _).2 ⟨hsource, fits_of_read hdata⟩)

/-- No other file of the directory has the name of the entry file. -/
theorem eq_entry_of_mem_files (ht : t.WellFormed) {files : List Path} {spot : Spot}
    (hfiles : t.ListsSources settings.extension spot files) {p : Path} (hp : p ∈ files)
    (hfileName : p.fileName? = some settings.entryFile) :
      p = pathOf (spot ++ [settings.entryFile]) := by
  obtain ⟨names, -, hnames, rfl⟩ := hfiles
  obtain ⟨name, hmem, rfl⟩ := List.mem_map.1 hp
  rw [ht.fileName?_pathOf ((hnames name).1 hmem).1.has] at hfileName
  rw [Option.some.inj hfileName]

theorem findSome?_entry (ht : t.WellFormed) (hname : IsEntryName settings) {d : ScriptDir}
    {spot : Spot}
    (hspot : t.isDirectoryAt spot = true) (hdir : d.dir = pathOf spot)
    (hfiles : t.ListsSources settings.extension spot d.files) {text : String}
    (hentry : EntryText t settings d.dir text) {contents : List (String × String)}
    (hcontents : seen (readAll d.files) t = .ok contents) :
    (contents.findSome? fun file ↦
      if (Path.mk file.1).fileName? = some settings.entryFile then Layer.ownBase? file.2 else none)
        = Layer.ownBase? text := by
  obtain ⟨hmem, hfileName, hread⟩ := entry_mem_files ht hname hspot hdir hfiles hentry
  refine findSome?_eq_of_forall (fun file hfile ↦ ?_)
    ⟨(_, text), (mem_readAll hcontents _).2 ⟨_, hmem, rfl, hread⟩, if_pos hfileName⟩
  obtain ⟨p, hp, hpath, hcontent⟩ := (mem_readAll hcontents file).1 hfile
  split
  next hthis =>
    rw [hpath] at hthis
    rw [eq_entry_of_mem_files ht hfiles hp hthis, hread] at hcontent
    exact .inl (congrArg _ (Except.ok.inj hcontent).symm)
  · exact .inr rfl

/-- An entry file holds one text. -/
theorem EntryText.unique {dir : Path} {text text' : String} (h : EntryText t settings dir text)
    (h' : EntryText t settings dir text') : text = text' := by
  obtain ⟨data, hdata, htext⟩ := h
  obtain ⟨data', hdata', htext'⟩ := h'
  obtain rfl := Except.ok.inj (hdata.symm.trans hdata')
  exact Option.some.inj (htext.symm.trans htext')

/-- A directory that holds one file. -/
theorem seen_readDir_of_single {dir : Path} {name text : String} (hlist : t.list dir = .ok [name])
    (hextension : hasExtension settings.extension (dir.join name) = true)
    (htext : seen (Disk.readText (dir.join name)) t = .ok text) (base : Option String) :
    seen (readDir settings dir base) t
      = .ok ⟨dir, [dir.join name], stitch [((dir.join name).text, text)], base⟩ := by
  obtain ⟨data, hdata, -⟩ := seen_readText.1 htext
  have hfiles : seen (sourceFiles settings dir) t = .ok [dir.join name] := by
    rw [seen_sourceFiles, hlist]
    refine exceptBind_eq_ok.2 ⟨[name], rfl, ?_⟩
    rw [List.mergeSort_singleton, List.map_singleton, List.filter_singleton, hextension, cond_true,
      List.filter_singleton, isFile_of_read hdata, cond_true]
  have hcontents : seen (readAll [dir.join name]) t = .ok [((dir.join name).text, text)] := by
    rw [readAll, seen_bind (looks_readText _).onDisk, seen_onDisk (looks_readText _), htext]
    rfl
  rw [readDir, seen_bind (looks_sourceFiles settings dir), hfiles]
  refine exceptBind_eq_ok.2 ⟨_, rfl, ?_⟩
  rw [seen_bind (looks_readAll _), hcontents]
  rfl

/-- What is loaded and what is recorded for a directory of a chain are read off one text, the one
from its lines and the other from its tokens. -/
theorem exists_recorded_of_chain (ht : t.WellFormed) (hname : IsEntryName settings) {steps : Nat}
    {visited : List Path} {dir : Path} {chain : List ScriptDir}
    (hload : seen (loadFrom settings steps visited dir) t = .ok chain) {v : Vocabulary}
    {compiled : Compiled} (hcompile : Workspace.compileChain settings v chain =
    .ok compiled) {i : Nat}
    {d : ScriptDir} (hd : chain[i]? = some d) (halone : FilesStandalone t d) {text : String}
    (hentry : EntryText t settings d.dir text) {ts : List Lexeme} (hlex : lex text = .ok ts) :
    ∃ info, compiled.program.layer? (i + 1) = some info ∧ d.base = scanBase? text ∧
      info.base = ts.findSome? Lexeme.base? := by
  obtain ⟨real, -, hchain, -⟩ := isChainOf_of_loadFrom ht hload
  have hmem : d ∈ chain := List.mem_of_getElem? hd
  obtain ⟨text', hentry', hbase⟩ := hchain.entries d hmem
  obtain rfl := hentry.unique hentry'
  obtain ⟨spot, hdir, hspot, hfiles⟩ := hchain.files d hmem
  obtain ⟨contents, hsource, hcontents⟩ := exists_contents (exists_readDir_of_mem hload hmem)
  obtain ⟨info, hinfo, items, hitems, hrecord⟩ := Workspace.layer?_compileChain hcompile hd
  have hcontent : ∀ file ∈ contents, Standalone file := by
    intro file hfile
    obtain ⟨p, hp, hpath, htext⟩ := (mem_readAll hcontents file).1 hfile
    have hfileAlone := halone p hp file.2 htext
    rwa [← hpath] at hfileAlone
  have hown : Layer.ownBase? text = ts.findSome? Lexeme.base? := by
    conv_rhs => rw [(lex_eq_tokens hlex).1]
    rw [List.findSome?_append, List.findSome?_singleton]
    exact (Option.or_none).symm
  refine ⟨info, hinfo, hbase, ?_⟩
  rw [hsource] at hitems hrecord
  rw [hrecord, ← hown, ← findSome?_entry ht hname hspot hdir hfiles hentry hcontents]
  exact Layer.directive?_stitch rfl hcontent rfl hitems

/-- The lines of an entry file and its tokens name the same base where they are in step: where the
first base line of the text starts a token, and where the first base directive opens its line. Then
the chain leads from a directory to the base that its layer records. -/
theorem base_scanned_and_recorded {source : String} {ts : List Lexeme}
    (hlex : lex source = .ok ts) :
    (∀ path, scanBase? source = some path ↔ ∃ place, FirstBaseLine source place path) ∧
    (InStep source ts ↔
      (∀ place path, FirstBaseLine source place path → ∃ l ∈ ts, l.span.start = place) ∧
        ∀ l, firstBase? ts = some l → l.OpensLine source) ∧
    (InStep source ts → scanBase? source = (ts.findSome? Lexeme.base?).map unindented) ∧
    ∀ (t : FileTree) (settings : Settings) (dir : Path) (v : Vocabulary) (chain : List ScriptDir)
      (compiled : Compiled), t.WellFormed → IsEntryName settings →
      seen (loadChain settings dir) t = .ok chain →
      Workspace.compileChain settings v chain = .ok compiled →
      ∀ i d, chain[i]? = some d → EntryText t settings d.dir source → FilesStandalone t d →
        ∃ info, compiled.program.layer? (i + 1) = some info ∧ d.base = scanBase? source ∧
          info.base = ts.findSome? Lexeme.base? ∧
          (InStep source ts → (i = 0 → info.base = none) ∧
            ∀ j below, i = j + 1 → chain[j]? = some below →
              ∃ path, info.base = some path ∧
                t.realPath (baseDir d.dir (unindented path)) = .ok below.dir) := by
  refine ⟨fun path ↦ scanBase?_eq_some_iff, inStep_iff hlex, scanBase?_of_inStep hlex, ?_⟩
  intro t settings dir v chain compiled ht hname hload hcompile i d hd hentry halone
  rw [seen_loadChain] at hload
  obtain ⟨info, hinfo, hbase, hrecord⟩ :=
    exists_recorded_of_chain ht hname hload hcompile hd halone hentry hlex
  obtain ⟨real, -, hchain, -⟩ := isChainOf_of_loadFrom ht hload
  refine ⟨info, hinfo, hbase, hrecord, fun hstep ↦ ?_⟩
  have hsame : d.base = info.base.map unindented := by
    rw [hbase, hrecord, scanBase?_of_inStep hlex hstep]
  refine ⟨?_, ?_⟩
  · rintro rfl
    have hfirst : d.base = none := hchain.first d (by rwa [List.head?_eq_getElem?])
    rw [hfirst] at hsame
    exact Option.map_eq_none_iff.1 hsame.symm
  · rintro j below rfl hbelow
    obtain ⟨hj, rfl⟩ := List.getElem?_eq_some_iff.1 hbelow
    obtain ⟨hj', rfl⟩ := List.getElem?_eq_some_iff.1 hd
    obtain ⟨base, hlinked, hreal⟩ := List.isChain_iff_getElem.1 hchain.linked j hj'
    rw [hsame, Option.map_eq_some_iff] at hlinked
    obtain ⟨path, hpath, rfl⟩ := hlinked
    exact ⟨path, hpath, hreal⟩

/-- A directory that names its base with a blank more than it takes. -/
private def indented : FileTree :=
  { entries := [(["base"], .directory 0),
      (["base", "main.rai"], .file "script main() \x7b \x7d".toUTF8 0),
      (["hero"], .directory 0), (["hero", "main.rai"], .file "#extends  base".toUTF8 0)] }

private def indentedBase : ScriptDir :=
  ⟨pathOf ["base"], [pathOf ["base", "main.rai"]],
    stitch [("/base/main.rai", "script main() \x7b \x7d")], none⟩

private def indentedHero : ScriptDir :=
  ⟨pathOf ["hero"], [pathOf ["hero", "main.rai"]],
    stitch [("/hero/main.rai", "#extends  base")], some "base"⟩

private def idle : Vocabulary where
  commands := .ofList [("Loopback", ⟨"Loopback", 0, []⟩)]
  globals := .empty

/-- What is run here: whether it is a tree, its base and its files, the tokens of the text that
names the base, and the two directories as a chain. -/
private theorem indented_runs :
    indented.WellFormed ∧ scanBase? "#extends  base" = some "base" ∧
      scanBase? "script main() \x7b \x7d" = none ∧
      (∀ name ∈ ["base", "hero"],
        hasExtension ({} : Settings).extension ((pathOf [name]).join "main.rai") = true) ∧
      Stitchable ("/hero/main.rai", "#extends  base") ∧
      ((lex "#extends  base").toOption.map fun ts ↦
        (firstBase? ts).map fun l ↦ (l.base?, l.span.start)) = some (some (some " base", 0)) ∧
      (Workspace.compileChain {} idle [indentedBase, indentedHero]).toOption.isSome = true := by
  decide +kernel

private theorem entryText_indentedBase :
    EntryText indented {} (pathOf ["base"]) "script main() \x7b \x7d" :=
  .of_read rfl

private theorem entryText_indentedHero : EntryText indented {} (pathOf ["hero"]) "#extends  base" :=
  .of_read rfl

private theorem loadChain_indented :
    seen (loadChain {} (pathOf ["hero"])) indented = .ok [indentedBase, indentedHero] := by
  obtain ⟨ht, hheroScan, hbaseScan, hextension, -⟩ := indented_runs
  have hhero : indented.realPath (pathOf ["hero"]) = .ok (pathOf ["hero"]) :=
    ht.realPath_pathOf rfl
  have hbase : indented.realPath (baseDir (pathOf ["hero"]) "base") = .ok (pathOf ["base"]) := rfl
  have hnew : pathOf ["base"] ∉ [pathOf ["hero"]] := by decide
  have hheroDir : seen (readDir {} (pathOf ["hero"]) (some "base")) indented = .ok indentedHero :=
    @seen_readDir_of_single indented {} _ "main.rai" _ rfl (hextension "hero" (by simp))
      (seen_readText.2 entryText_indentedHero) _
  have hbaseDir : seen (readDir {} (pathOf ["base"]) none) indented = .ok indentedBase :=
    @seen_readDir_of_single indented {} _ "main.rai" _ rfl (hextension "base" (by simp))
      (seen_readText.2 entryText_indentedBase) _
  rw [seen_loadChain, seen_loadFrom_of_entryText hhero entryText_indentedHero _ List.not_mem_nil,
    hheroScan, loadBelow, seen_loadFrom_of_entryText hbase entryText_indentedBase _ hnew,
    hbaseScan, loadBelow, seen_pure, hheroDir, hbaseDir]
  rfl

private theorem filesStandalone_indented : FilesStandalone indented indentedHero := by
  intro p hp text htext
  obtain rfl := List.mem_singleton.1 hp
  have hhero : seen (Disk.readText (pathOf ["hero", "main.rai"])) indented = .ok "#extends  base" :=
    seen_readText.2 ⟨_, rfl, fromUTF8?_toUTF8 _⟩
  obtain rfl := Except.ok.inj (hhero.symm.trans htext)
  obtain ⟨-, -, -, -, hfile, hread, -⟩ := indented_runs
  obtain ⟨ts, hts, -⟩ := Option.map_eq_some_iff.1 hread
  exact ⟨hfile, by decide, ts, Running.toOption_eq_some.1 hts⟩

theorem base_scanned_and_recorded_indented :
    ∃ compiled ts info, lex "#extends  base" = .ok ts ∧ InStep "#extends  base" ts ∧
      scanBase? "#extends  base" = (ts.findSome? Lexeme.base?).map unindented ∧
      seen (loadChain {} (pathOf ["hero"])) indented = .ok [indentedBase, indentedHero] ∧
      Workspace.compileChain {} idle [indentedBase, indentedHero] = .ok compiled ∧
      compiled.program.layer? 2 = some info ∧ info.base = some " base" ∧
      indented.realPath (baseDir (pathOf ["hero"]) (unindented " base")) =
        .ok (pathOf ["base"]) := by
  obtain ⟨ht, -, -, -, -, hread, hcompile⟩ := indented_runs
  obtain ⟨compiled, hcompile⟩ := Option.isSome_iff_exists.1 hcompile
  rw [Running.toOption_eq_some] at hcompile
  obtain ⟨ts, hts, hread⟩ := Option.map_eq_some_iff.1 hread
  rw [Running.toOption_eq_some] at hts
  obtain ⟨l, hfirst, hl⟩ := Option.map_eq_some_iff.1 hread
  obtain ⟨hbase, hstart⟩ := Prod.mk.inj hl
  have hstep := inStep_of_start hts hfirst hstart
  obtain ⟨-, path, hpath, hfound⟩ := base_of_firstBase? hfirst
  obtain rfl := Option.some.inj (hbase.symm.trans hpath)
  obtain ⟨-, -, hagree, hchain⟩ := base_scanned_and_recorded hts
  obtain ⟨info, hinfo, -, hrecord, hbelow⟩ := hchain _ _ _ _ _ _ ht
    ⟨by decide, by decide⟩ loadChain_indented hcompile 1 indentedHero rfl
    entryText_indentedHero filesStandalone_indented
  have hrecorded := hrecord.trans hfound
  obtain ⟨path, hpath', hreal⟩ := (hbelow hstep).2 0 _ rfl rfl
  obtain rfl := Option.some.inj (hrecorded.symm.trans hpath')
  exact ⟨compiled, ts, info, hts, hstep, hagree hstep, loadChain_indented, hcompile, hinfo,
    hrecorded, hreal⟩

/-- A line in a comment names no base, but the chain follows it. -/
theorem hidden_base_scanned :
    ∃ ts, lex "/*\n#extends base\n*/\nscript main() \x7b \x7d" = .ok ts ∧
      ts.findSome? Lexeme.base? = none ∧
      scanBase? "/*\n#extends base\n*/\nscript main() \x7b \x7d" = some "base" := by
  have hread : (lex "/*\n#extends base\n*/\nscript main() \x7b \x7d").toOption.map
      (·.findSome? Lexeme.base?) = some none := by
    decide +kernel
  obtain ⟨ts, hts, hnone⟩ := Option.map_eq_some_iff.1 hread
  exact ⟨ts, Running.toOption_eq_some.1 hts, hnone, by decide +kernel⟩

end Project

end CharacterScript
