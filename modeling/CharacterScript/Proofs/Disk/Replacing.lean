import CharacterScript.Proofs.Disk.Siblings

/-!
# Replacing a file

A computation on a disk can stop between any two of its questions, and any question can be refused.
`DiskM.Reaches` relates a computation on a tree to all it can come to: what is left of it, and the
tree at that moment.

## The steps

A file is replaced in steps. A draft is made beside it and filled, the old file is renamed to be the
backup, and then the draft gets the name of the file. A name that is given to another file leads to
one file or to the other at every moment, so the draft may take the place of the old file without
anyone missing it. But the backup takes the old file away before that. `replace_stops` says what is
there at each stop: mostly the old bytes or the new ones, but no file at all between the two
renamings, which always take place unless no draft can be made or a directory has the name of the
backup.

## Anything may be refused

A disk may refuse what a tree would allow, because it is full or not writable. `FileTree.Outcome`
therefore has every question answered as the tree does or refused with some error, without a
change. What holds at all stops holds for a disk that refuses nothing as well as for one that
refuses half of the questions.

The steps are gone through once, from the last to the first: what is true at all stops from some
step on is used for the step before it.
-/

namespace CharacterScript

/-! ## Stops

A stop is a state that a computation can be in between two questions, its start and its end
included. -/

/-- The answer to a question that the disk refuses. -/
def Query.refusal (e : DiskError) : (q : Query) → Option q.Answer
  | .stat _ => some (.error e)
  | .realPath _ => some (.error e)
  | .read _ => some (.error e)
  | .list _ => some (.error e)
  | .create _ => some (.error e)
  | .write _ _ => some (.error e)
  | .rename _ _ => some (.error e)
  | .makeDir _ => some (.error e)
  | .currentDir => some (.error e)
  | .extent => none

/-- What may come of a question: it is answered, or the disk refuses and nothing changes, or only a
part of the bytes is written. -/
inductive FileTree.Outcome (t : FileTree) : (q : Query) → q.Answer → FileTree → Prop
  | answered (q : Query) : Outcome t q (t.answer q).1 (t.answer q).2
  | refused {q : Query} {e : DiskError} {a : q.Answer} (h : q.refusal e = some a) : Outcome t q a t
  | partly {p : Path} {part rest : ByteArray} {e : DiskError} {t' : FileTree}
      (h : t.write p part = .ok t') : Outcome t (.write p (part ++ rest)) (.error e) t'

/-- What a computation on a tree can come to. -/
inductive DiskM.Reaches {α : Type} : DiskM α → FileTree → DiskM α → FileTree → Prop
  | refl (x : DiskM α) (t : FileTree) : Reaches x t x t
  | ask {q : Query} {next : q.Answer → DiskM α} {t t' u : FileTree} {a : q.Answer} {x : DiskM α}
      (h : t.Outcome q a t') (hrest : Reaches (next a) t' x u) : Reaches (.ask q next) t x u

namespace DiskM

variable {α : Type} {x : DiskM α} {t u : FileTree}

/-- Where every question is answered, a computation comes to its end. -/
theorem reaches_run (x : DiskM α) (t : FileTree) : Reaches x t (.done (x.run t).1) (x.run t).2 := by
  induction x generalizing t with
  | done a => exact .refl _ t
  | ask q next ih => exact .ask (.answered q) (ih _ _)

theorem reaches_done_iff {a : α} : Reaches (.done a) t x u ↔ x = .done a ∧ u = t := by
  constructor
  · rintro (_ | _)
    exact ⟨rfl, rfl⟩
  · rintro ⟨rfl, rfl⟩
    exact .refl _ _

theorem reaches_ask_iff {q : Query} {next : q.Answer → DiskM α} :
    Reaches (.ask q next) t x u ↔
      (x = .ask q next ∧ u = t) ∨ ∃ a t', t.Outcome q a t' ∧ Reaches (next a) t' x u := by
  constructor
  · rintro (_ | ⟨h, hrest⟩)
    · exact .inl ⟨rfl, rfl⟩
    · exact .inr ⟨_, _, h, hrest⟩
  · rintro (⟨rfl, rfl⟩ | ⟨a, t', h, hrest⟩)
    · exact .refl _ _
    · exact .ask h hrest

end DiskM

namespace FileTree

variable {t t' : FileTree}

/-- A change is made, or it is refused and nothing happens. -/
theorem changed_cases (t : FileTree) (x : Except DiskError FileTree) :
    ((t.changed x).1 = .ok () ∧ x = .ok (t.changed x).2) ∨
      ((∃ e, (t.changed x).1 = .error e) ∧ (t.changed x).2 = t) := by
  cases x with
  | ok t' => exact .inl ⟨rfl, rfl⟩
  | error e => exact .inr ⟨⟨e, rfl⟩, rfl⟩

namespace Outcome

variable {p q : Path} {data : ByteArray}

theorem of_answer {question : Query} {a : question.Answer} (h : t.answer question = (a, t')) :
    t.Outcome question a t' := by
  have hanswered := answered (t := t) question
  rwa [h] at hanswered

theorem create (h : t.create p = .ok t') : t.Outcome (.create p) (Except.ok ()) t' :=
  of_answer (by rw [answer, h]; rfl)

theorem write (h : t.write p data = .ok t') : t.Outcome (.write p data) (Except.ok ()) t' :=
  of_answer (by rw [answer, h]; rfl)

theorem rename (h : t.rename p q = .ok t') : t.Outcome (.rename p q) (Except.ok ()) t' :=
  of_answer (by rw [answer, h]; rfl)

theorem stat {found : Stat} (h : t.stat p = .ok found) :
    t.Outcome (.stat p) (Except.ok found) t :=
  of_answer (by rw [answer, h])

theorem of_create {a : (Query.create p).Answer} (h : t.Outcome (.create p) a t') :
    (a = .ok () ∧ t.create p = .ok t') ∨ ((∃ e, a = .error e) ∧ t' = t) := by
  cases h with
  | answered => exact t.changed_cases _
  | refused h => exact .inr ⟨⟨_, (Option.some.inj h).symm⟩, rfl⟩

theorem of_rename {a : (Query.rename p q).Answer} (h : t.Outcome (.rename p q) a t') :
    (a = .ok () ∧ t.rename p q = .ok t') ∨ ((∃ e, a = .error e) ∧ t' = t) := by
  cases h with
  | answered => exact t.changed_cases _
  | refused h => exact .inr ⟨⟨_, (Option.some.inj h).symm⟩, rfl⟩

theorem of_write {a : (Query.write p data).Answer} (h : t.Outcome (.write p data) a t') :
    (a = .ok () ∧ t.write p data = .ok t') ∨
      ((∃ e, a = .error e) ∧ (t' = t ∨ ∃ part, t.write p part = .ok t')) := by
  cases h with
  | answered => exact (t.changed_cases _).imp_right fun h ↦ ⟨h.1, .inl h.2⟩
  | refused h => exact .inr ⟨⟨_, (Option.some.inj h).symm⟩, .inl rfl⟩
  | partly h => exact .inr ⟨⟨_, rfl⟩, .inr ⟨_, h⟩⟩

theorem of_stat {a : (Query.stat p).Answer} (h : t.Outcome (.stat p) a t') : t' = t := by
  cases h with
  | answered => rfl
  | refused => rfl

end Outcome

end FileTree

namespace Disk

/-- The last step: the draft takes the place of the file. -/
def publish (p : Path) : DiskM (Except DiskError Unit) :=
  .ask (.rename (draftOf p) p) .done

/-- Replacing a file, step by step. -/
theorem run_replace (p : Path) (data : ByteArray) : (replace p data).run =
    .ask (.create (draftOf p)) fun
      | .error e => .done (.error e)
      | .ok () => .ask (.write (draftOf p) data) fun
        | .error e => .done (.error e)
        | .ok () => .ask (.stat p) fun
          | .ok _ => .ask (.rename p (backupOf p)) fun _ ↦ publish p
          | .error _ => publish p := by
  refine congrArg (DiskM.ask _) (funext fun created ↦ ?_)
  cases created with
  | error e => rfl
  | ok u =>
    refine congrArg (DiskM.ask _) (funext fun written ↦ ?_)
    cases written with
    | error e => rfl
    | ok u =>
      refine congrArg (DiskM.ask _) (funext fun found ↦ ?_)
      cases found with
      | error e => rfl
      | ok s => rfl

end Disk

/-! ## A file and its siblings

The draft and the backup are other names in the directory of the file. No question names another
one, so everything else on the disk is what it was. -/

namespace FileTree

/-- The names of a file, its draft and its backup. -/
def siblingNames (name : String) : List String :=
  [name, name ++ ".tmp", name ++ ".bak"]

/-- Only files with these names in this directory differ, and all directories are as they were. -/
structure Beside (t : FileTree) (dir : Spot) (names : List String) (t' : FileTree) : Prop where
  /-- It is still a tree. -/
  wellFormed : t'.WellFormed
  /-- The directories are the same. -/
  dirs : ∀ s, t'.isDirectoryAt s = t.isDirectoryAt s
  /-- Relative paths start where they did. -/
  here : t'.here = t.here
  /-- At any other place there is what was there. -/
  others : ∀ s, (∀ name ∈ names, s ≠ dir ++ [name]) → t'.node? s = t.node? s

/-- There is a file with these bytes at a place. -/
def Holds (t : FileTree) (spot : Spot) (data : ByteArray) : Prop :=
  ∃ modified, t.node? spot = some (.file data modified)

variable {t t' : FileTree} {dir : Spot} {names : List String}

namespace Beside

theorem refl (ht : t.WellFormed) : t.Beside dir names t :=
  ⟨ht, fun _ ↦ rfl, rfl, fun _ _ ↦ rfl⟩

theorem leads (h : t.Beside dir names t') {p : Path} {d : Spot} {name : String}
    (hp : t.Leads p d name) : t'.Leads p d name :=
  hp.kept (fun s hs ↦ (h.dirs s).trans hs) h.here

theorem put (h : t.Beside dir names t') {name : String} (hname : IsName name) (hmem : name ∈ names)
    (hdir : t.isDirectoryAt dir = true) (hfree : t.isDirectoryAt (dir ++ [name]) = false)
    (data : ByteArray) : t.Beside dir names (t'.put (dir ++ [name]) data) := by
  have hne : dir ++ [name] ≠ [] := by simp
  refine ⟨h.wellFormed.put ((h.dirs dir).trans hdir) hname ((h.dirs _).trans hfree) data,
    fun s ↦ ?_, h.here, fun s hs ↦ ?_⟩
  · rw [isDirectoryAt_put t' hne]
    split
    next hs => rw [hs, hfree]
    · exact h.dirs s
  · rw [node?_put t' hne, if_neg (hs name hmem), h.others s hs]

theorem move (h : t.Beside dir names t') {source target : String} (hsource : source ∈ names)
    (htarget : target ∈ names) (hne : source ≠ target) (hname : IsName target)
    (hdir : t.isDirectoryAt dir = true) (hfree : t.isDirectoryAt (dir ++ [target]) = false)
    {data : ByteArray} (hfile : t'.Holds (dir ++ [source]) data) :
    t.Beside dir names (t'.move (dir ++ [source]) (dir ++ [target])) := by
  obtain ⟨modified, hfile⟩ := hfile
  have hspots : dir ++ [source] ≠ dir ++ [target] := by simpa using hne
  have htarget' : dir ++ [target] ≠ [] := by simp
  have hfree' := (h.dirs _).trans hfree
  refine ⟨h.wellFormed.move hfile ((h.dirs dir).trans hdir) hname hspots hfree', fun s ↦ ?_, h.here,
    fun s hs ↦ ?_⟩
  · rw [h.wellFormed.isDirectoryAt_move hfile htarget' hspots hfree', h.dirs]
  · rw [h.wellFormed.node?_move hfile htarget' hspots, if_neg (hs target htarget),
      if_neg (hs source hsource), h.others s hs]

/-- A file is renamed to one of the names. It is at its new place then and no longer at its old
one. -/
theorem rename (h : t.Beside dir names t') {p q : Path} {source target : String}
    (hp : t.Leads p dir source) (hq : t.Leads q dir target) (hsource : source ∈ names)
    (htarget : target ∈ names) (hne : source ≠ target) {data : ByteArray}
    (hfile : t'.Holds (dir ++ [source]) data) {u : FileTree} (hrename : t'.rename p q = .ok u) :
    t.isDirectoryAt (dir ++ [target]) = false ∧ t.Beside dir names u ∧
      u.Holds (dir ++ [target]) data ∧ u.node? (dir ++ [source]) = none ∧
      ∀ s, s ≠ dir ++ [target] → s ≠ dir ++ [source] → u.node? s = t'.node? s := by
  obtain ⟨modified, hnode⟩ := hfile
  rw [(h.leads hp).rename (h.leads hq) hne hnode, h.dirs] at hrename
  split at hrename
  · cases hrename
  next hfree =>
    rw [Bool.not_eq_true] at hfree
    obtain rfl := Except.ok.inj hrename
    have hspots : dir ++ [source] ≠ dir ++ [target] := by simpa using hne
    have hmoved : ∀ s, (t'.move (dir ++ [source]) (dir ++ [target])).node? s
        = if s = dir ++ [target] then t'.node? (dir ++ [source])
          else if s = dir ++ [source] then none else t'.node? s :=
      h.wellFormed.node?_move hnode (by simp) hspots
    refine ⟨hfree, h.move hsource htarget hne hq.isName hp.isDirectory hfree ⟨modified, hnode⟩,
      ⟨modified, ?_⟩, ?_, fun s hs hs' ↦ ?_⟩
    · rw [hmoved, if_pos rfl, hnode]
    · rw [hmoved, if_neg hspots, if_pos rfl]
    · rw [hmoved, if_neg hs, if_neg hs']

end Beside

/-- The path of a file beside which a draft can be made. -/
structure Site (t : FileTree) (p : Path) (dir : Spot) (name : String) : Prop where
  /-- The files form a tree. -/
  wellFormed : t.WellFormed
  /-- The path leads to the file. -/
  path : t.Leads p dir name
  /-- The path of the draft leads to the sibling with that name. -/
  draft : t.Leads (Disk.draftOf p) dir (name ++ ".tmp")
  /-- The path of the backup leads to the sibling with that name. -/
  backup : t.Leads (Disk.backupOf p) dir (name ++ ".bak")
  /-- There is no directory where the file belongs. -/
  file : t.isDirectoryAt (dir ++ [name]) = false
  /-- There is no directory where the draft belongs. -/
  free : t.isDirectoryAt (dir ++ [name ++ ".tmp"]) = false

theorem WellFormed.site (ht : t.WellFormed) {p : Path} {name : String} {old : ByteArray}
    (hp : t.Leads p dir name) (hold : t.Holds (dir ++ [name]) old)
    (hcreate : t.create (Disk.draftOf p) = .ok t') :
    t.Site p dir name ∧ t' = t.put (dir ++ [name ++ ".tmp"]) .empty := by
  obtain ⟨hdraft, hbackup⟩ := hp.siblings hcreate
  obtain ⟨modified, hold⟩ := hold
  rw [hdraft.create] at hcreate
  split at hcreate
  · cases hcreate
  next hfree =>
    exact ⟨⟨ht, hp, hdraft, hbackup, isDirectoryAt_of_file hold, by simpa using hfree⟩,
      (Except.ok.inj hcreate).symm⟩

/-- What is there when replacing a file has stopped, with `x` left to do: the file has its old bytes
or the new ones, or it is not there, and then the backup has the old bytes and the draft the new
ones. -/
structure Stop (t : FileTree) (dir : Spot) (name : String) (old data : ByteArray)
    (x : DiskM (Except DiskError Unit)) (u : FileTree) : Prop where
  /-- Nothing else has changed. -/
  beside : t.Beside dir (siblingNames name) u
  /-- No bytes are lost: where the file is missing, the backup has the old ones. -/
  content : u.Holds (dir ++ [name]) old ∨ u.Holds (dir ++ [name]) data ∨
    (t.isDirectoryAt (dir ++ [name ++ ".bak"]) = false ∧ u.node? (dir ++ [name]) = none ∧
      u.Holds (dir ++ [name ++ ".tmp"]) data ∧ u.Holds (dir ++ [name ++ ".bak"]) old)
  /-- At the end the file has the new bytes, and the draft is gone. -/
  finished : x = .done (.ok ()) →
    u.Holds (dir ++ [name]) data ∧ u.node? (dir ++ [name ++ ".tmp"]) = none

namespace Site

variable {p : Path} {name : String} {old data : ByteArray} {u u' : FileTree}
  {x : DiskM (Except DiskError Unit)}

/-- From the last step on. -/
theorem stop_of_publish (h : t.Site p dir name) (hbeside : t.Beside dir (siblingNames name) u)
    (hdraft : u.Holds (dir ++ [name ++ ".tmp"]) data)
    (hold : u.Holds (dir ++ [name]) old ∨ (t.isDirectoryAt (dir ++ [name ++ ".bak"]) = false ∧
      u.node? (dir ++ [name]) = none ∧ u.Holds (dir ++ [name ++ ".bak"]) old))
    (hreach : (Disk.publish p).Reaches u x u') : t.Stop dir name old data x u' := by
  have hbefore : x ≠ .done (.ok ()) → t.Stop dir name old data x u := by
    intro hx
    refine ⟨hbeside, ?_, fun hdone ↦ absurd hdone hx⟩
    rcases hold with hold | ⟨hfree, hnone, hback⟩
    · exact .inl hold
    · exact .inr (.inr ⟨hfree, hnone, hdraft, hback⟩)
  obtain ⟨rfl, rfl⟩ | ⟨a, v, houtcome, hrest⟩ := DiskM.reaches_ask_iff.1 hreach
  · exact hbefore nofun
  obtain ⟨rfl, rfl⟩ := DiskM.reaches_done_iff.1 hrest
  obtain ⟨rfl, hrename⟩ | ⟨⟨e, rfl⟩, rfl⟩ := houtcome.of_rename
  · obtain ⟨-, hmoved, hnew, hgone, -⟩ := hbeside.rename h.draft h.path (by simp [siblingNames])
      (by simp [siblingNames]) (by simp) hdraft hrename
    exact ⟨hmoved, .inr (.inl hnew), fun _ ↦ ⟨hnew, hgone⟩⟩
  · exact hbefore nofun

/-- From where the old file is made the backup. -/
theorem stop_of_backup (h : t.Site p dir name) (hbeside : t.Beside dir (siblingNames name) u)
    (hdraft : u.Holds (dir ++ [name ++ ".tmp"]) data) (hold : u.Holds (dir ++ [name]) old)
    (hreach : (DiskM.ask (.rename p (Disk.backupOf p)) fun _ ↦ Disk.publish p).Reaches u x u') :
    t.Stop dir name old data x u' := by
  obtain ⟨rfl, rfl⟩ | ⟨a, v, houtcome, hrest⟩ := DiskM.reaches_ask_iff.1 hreach
  · exact ⟨hbeside, .inl hold, nofun⟩
  obtain ⟨rfl, hrename⟩ | ⟨⟨e, rfl⟩, rfl⟩ := houtcome.of_rename
  · obtain ⟨hfree, hmoved, hback, hgone, hothers⟩ := hbeside.rename h.path h.backup
      (by simp [siblingNames]) (by simp [siblingNames]) (Ne.symm (by simp)) hold hrename
    obtain ⟨modified, hnode⟩ := hdraft
    have hdraft' : v.Holds (dir ++ [name ++ ".tmp"]) data :=
      ⟨modified, by rw [hothers _ (by simp) (by simp), hnode]⟩
    exact h.stop_of_publish hmoved hdraft' (.inr ⟨hfree, hgone, hback⟩) hrest
  · exact h.stop_of_publish hbeside hdraft (.inl hold) hrest

/-- A draft with any bytes leaves the file as it was. -/
theorem put_draft (h : t.Site p dir name) (hbeside : t.Beside dir (siblingNames name) u)
    (hold : u.Holds (dir ++ [name]) old) (part : ByteArray) :
    t.Beside dir (siblingNames name) (u.put (dir ++ [name ++ ".tmp"]) part) ∧
      (u.put (dir ++ [name ++ ".tmp"]) part).Holds (dir ++ [name]) old ∧
      (u.put (dir ++ [name ++ ".tmp"]) part).Holds (dir ++ [name ++ ".tmp"]) part := by
  have hne : name ≠ name ++ ".tmp" := Ne.symm (by simp)
  have hput (s : Spot) : (u.put (dir ++ [name ++ ".tmp"]) part).node? s
      = if s = dir ++ [name ++ ".tmp"] then some (.file part u.clock) else u.node? s :=
    node?_put u (by simp) part s
  obtain ⟨modified, hnode⟩ := hold
  refine ⟨hbeside.put h.draft.isName (by simp [siblingNames]) h.path.isDirectory h.free part,
    ⟨modified, ?_⟩, u.clock, ?_⟩
  · rw [hput, if_neg (by simpa using hne), hnode]
  · rw [hput, if_pos rfl]

theorem stop_of_replace (h : t.Site p dir name) (hold : t.Holds (dir ++ [name]) old)
    (hreach : (Disk.replace p data).run.Reaches t x u') : t.Stop dir name old data x u' := by
  rw [Disk.run_replace] at hreach
  obtain ⟨rfl, rfl⟩ | ⟨a, t₁, houtcome, hrest⟩ := DiskM.reaches_ask_iff.1 hreach
  · exact ⟨.refl h.wellFormed, .inl hold, nofun⟩
  obtain ⟨rfl, hcreate⟩ | ⟨⟨e, rfl⟩, rfl⟩ := houtcome.of_create
  swap
  · obtain ⟨rfl, rfl⟩ := DiskM.reaches_done_iff.1 hrest
    exact ⟨.refl h.wellFormed, .inl hold, nofun⟩
  obtain ⟨-, rfl⟩ := h.wellFormed.site h.path hold hcreate
  obtain ⟨hbeside, hold₁, hdraft₁⟩ := h.put_draft (.refl h.wellFormed) hold .empty
  obtain ⟨rfl, rfl⟩ | ⟨a, t₂, houtcome, hrest⟩ := DiskM.reaches_ask_iff.1 hrest
  · exact ⟨hbeside, .inl hold₁, nofun⟩
  have hwrite (part : ByteArray) := (hbeside.leads h.draft).write hdraft₁.choose_spec part
  obtain ⟨rfl, hwritten⟩ | ⟨⟨e, rfl⟩, hpart⟩ := houtcome.of_write
  swap
  · -- the draft may have any bytes now, and nothing more is done
    obtain ⟨rfl, rfl⟩ := DiskM.reaches_done_iff.1 hrest
    obtain rfl | ⟨part, hpart⟩ := hpart
    · exact ⟨hbeside, .inl hold₁, nofun⟩
    · obtain rfl := Except.ok.inj ((hwrite part).symm.trans hpart)
      obtain ⟨hbeside, hold₂, -⟩ := h.put_draft hbeside hold₁ part
      exact ⟨hbeside, .inl hold₂, nofun⟩
  obtain rfl := Except.ok.inj ((hwrite data).symm.trans hwritten)
  obtain ⟨hbeside, hold₂, hdraft₂⟩ := h.put_draft hbeside hold₁ data
  obtain ⟨rfl, rfl⟩ | ⟨a, t₃, houtcome, hrest⟩ := DiskM.reaches_ask_iff.1 hrest
  · exact ⟨hbeside, .inl hold₂, nofun⟩
  obtain rfl := houtcome.of_stat
  cases a with
  | ok found => exact h.stop_of_backup hbeside hdraft₂ hold₂ hrest
  | error e => exact h.stop_of_publish hbeside hdraft₂ (.inl hold₂) hrest

/-- What the three paths lead to at a stop. -/
theorem read_of_stop (h : t.Site p dir name) (hstop : t.Stop dir name old data x u) :
    u.read p = .ok old ∨ u.read p = .ok data ∨
      (t.isDirectoryAt (dir ++ [name ++ ".bak"]) = false ∧ u.read p = .error .notFound ∧
        u.read (Disk.draftOf p) = .ok data ∧ u.read (Disk.backupOf p) = .ok old) := by
  obtain ⟨hbeside, hcontent, -⟩ := hstop
  have hpath := hbeside.leads h.path
  obtain ⟨_, hfile⟩ | ⟨_, hfile⟩ | ⟨hfree, hnone, ⟨_, hnew⟩, ⟨_, hback⟩⟩ := hcontent
  · exact .inl (hpath.read_of_file hfile)
  · exact .inr (.inl (hpath.read_of_file hfile))
  · exact .inr (.inr ⟨hfree, hpath.read_of_none hnone, (hbeside.leads h.draft).read_of_file hnew,
      (hbeside.leads h.backup).read_of_file hback⟩)

/-- If no directory is in the way of the backup, there is a moment without a file. -/
theorem exists_reaches_missing (h : t.Site p dir name) (hold : t.Holds (dir ++ [name]) old)
    (hfree : t.isDirectoryAt (dir ++ [name ++ ".bak"]) = false) (data : ByteArray) :
    ∃ x u, (Disk.replace p data).run.Reaches t x u ∧ u.read p = .error .notFound := by
  obtain ⟨hbeside₁, hold₁, _, hdraft₁⟩ := h.put_draft (.refl h.wellFormed) hold .empty
  obtain ⟨hbeside₂, hold₂, -⟩ := h.put_draft hbeside₁ hold₁ data
  obtain ⟨modified, hnode₂⟩ := id hold₂
  -- the four steps up to that moment
  have hcreate : t.create (Disk.draftOf p) = .ok (t.put (dir ++ [name ++ ".tmp"]) .empty) := by
    rw [h.draft.create, h.free, if_neg Bool.false_ne_true]
  have hwrite := (hbeside₁.leads h.draft).write hdraft₁ data
  have hstat := (hbeside₂.leads h.path).stat_of_file hnode₂
  have hrename := (hbeside₂.leads h.path).rename (hbeside₂.leads h.backup)
    (Ne.symm (by simp)) hnode₂
  rw [hbeside₂.dirs, hfree, if_neg Bool.false_ne_true] at hrename
  obtain ⟨-, hbeside₃, -, hgone, -⟩ := hbeside₂.rename h.path h.backup (by simp [siblingNames])
    (by simp [siblingNames]) (Ne.symm (by simp)) hold₂ hrename
  refine ⟨Disk.publish p, _, ?_, (hbeside₃.leads h.path).read_of_none hgone⟩
  rw [Disk.run_replace]
  exact .ask (.create hcreate) (.ask (.write hwrite) (.ask (.stat hstat) (.ask (.rename hrename)
    (.refl _ _))))

end Site

/-- If no draft can be made, nothing happens at all. -/
theorem eq_of_no_draft {p : Path} {data : ByteArray} {x : DiskM (Except DiskError Unit)}
    (h : ∀ t', t.create (Disk.draftOf p) ≠ .ok t')
    (hreach : (Disk.replace p data).run.Reaches t x t') : t' = t ∧ x ≠ .done (.ok ()) := by
  rw [Disk.run_replace] at hreach
  obtain ⟨rfl, rfl⟩ | ⟨a, t₁, houtcome, hrest⟩ := DiskM.reaches_ask_iff.1 hreach
  · exact ⟨rfl, nofun⟩
  obtain ⟨-, hcreate⟩ | ⟨⟨e, rfl⟩, rfl⟩ := houtcome.of_create
  · exact absurd hcreate (h t₁)
  · obtain ⟨rfl, rfl⟩ := DiskM.reaches_done_iff.1 hrest
    exact ⟨rfl, nofun⟩

end FileTree

open FileTree Disk

/-- Take a path that leads to a file, and replace the file. Wherever this stops, the file has its
old bytes or the new ones, or it is missing, and then the backup has the old bytes and the draft the
new ones; no other file has changed. If it ends well, the file has the new bytes and there is no
draft. The file is never missing exactly if no draft can be made or a directory is in the way of the
backup. -/
theorem replace_stops {t : FileTree} {p : Path} {old : ByteArray} (ht : t.WellFormed)
    (hold : t.read p = .ok old) (data : ByteArray) :
    ∃ dir name, t.find p = .ok (dir ++ [name]) ∧
      (∀ x t', (replace p data).run.Reaches t x t' →
        (t'.read p = .ok old ∨ t'.read p = .ok data ∨
          (t'.read p = .error .notFound ∧ t'.read (draftOf p) = .ok data ∧
            t'.read (backupOf p) = .ok old)) ∧
        (x = .done (.ok ()) → t'.read p = .ok data ∧ t'.stat (draftOf p) = .error .notFound) ∧
        ∀ s, (∀ other ∈ siblingNames name, s ≠ dir ++ [other]) → t'.node? s = t.node? s) ∧
      ((∀ x t', (replace p data).run.Reaches t x t' → t'.read p = .ok old ∨ t'.read p = .ok data) ↔
        (∀ t', t.create (draftOf p) ≠ .ok t') ∨
          ∃ modified, t.stat (backupOf p) = .ok ⟨.directory, modified⟩) := by
  obtain ⟨dir, name, modified, hp, hnode⟩ := ht.leads_of_read hold
  refine ⟨dir, name, hp.find_of_some hnode, ?_⟩
  -- where no draft can be made, nothing is done at all
  by_cases hdraft : ∃ t', t.create (draftOf p) = .ok t'
  · obtain ⟨t₁, hcreate⟩ := hdraft
    obtain ⟨hsite, -⟩ := ht.site hp ⟨modified, hnode⟩ hcreate
    have hstop {x : DiskM (Except DiskError Unit)} {t' : FileTree} :
        (replace p data).run.Reaches t x t' → t.Stop dir name old data x t' :=
      hsite.stop_of_replace ⟨modified, hnode⟩
    refine ⟨fun x t' hreach ↦ ?_, ?_⟩
    · obtain ⟨hbeside, -, hfinished⟩ := hstop hreach
      refine ⟨(hsite.read_of_stop (hstop hreach)).imp_right (Or.imp_right And.right), fun hx ↦ ?_,
        hbeside.others⟩
      obtain ⟨⟨_, hfile⟩, hnone⟩ := hfinished hx
      exact ⟨(hbeside.leads hp).read_of_file hfile, (hbeside.leads hsite.draft).stat_of_none hnone⟩
    · rw [hsite.backup.exists_stat_directory_iff]
      constructor
      · intro hall
        by_contra hfree
        obtain ⟨x, t', hreach, hmissing⟩ := hsite.exists_reaches_missing ⟨modified, hnode⟩
          (Bool.not_eq_true _ ▸ (not_or.1 hfree).2) data
        have hread := hall x t' hreach
        rw [hmissing] at hread
        simp at hread
      · rintro (hnone | hdir) x t' hreach
        · exact absurd hcreate (hnone t₁)
        · obtain hread | hread | ⟨hfree, -⟩ := hsite.read_of_stop (hstop hreach)
          · exact .inl hread
          · exact .inr hread
          · rw [hdir] at hfree
            cases hfree
  · have hnone : ∀ t', t.create (draftOf p) ≠ .ok t' := fun t' h ↦ hdraft ⟨t', h⟩
    refine ⟨fun x t' hreach ↦ ?_, iff_of_true (fun x t' hreach ↦ ?_) (.inl hnone)⟩
    · obtain ⟨rfl, hx⟩ := eq_of_no_draft hnone hreach
      exact ⟨.inl hold, fun hdone ↦ absurd hdone hx, fun _ _ ↦ rfl⟩
    · obtain ⟨rfl, -⟩ := eq_of_no_draft hnone hreach
      exact .inl hold

/-- A tree with one file, which has one byte. -/
def Sample.oneFile : FileTree :=
  FileTree.put {} ["f"] ⟨#[1]⟩

theorem Sample.wellFormed_oneFile : oneFile.WellFormed :=
  @WellFormed.put {} wellFormed_empty [] rfl "f" (by decide) rfl _

/-- Replacing the one file ends well, with its new byte. -/
theorem replace_stops_oneFile : ∃ t', Sample.oneFile.WellFormed ∧
    Sample.oneFile.read ⟨"/f"⟩ = .ok ⟨#[1]⟩ ∧
    (replace ⟨"/f"⟩ ⟨#[2]⟩).run.Reaches Sample.oneFile (.done (.ok ())) t' ∧
    t'.read ⟨"/f"⟩ = .ok ⟨#[2]⟩ ∧ t'.stat ⟨"/f.tmp"⟩ = .error .notFound := by
  have hread : Sample.oneFile.read ⟨"/f"⟩ = .ok ⟨#[1]⟩ := by decide +kernel
  have hrun := DiskM.reaches_run (replace ⟨"/f"⟩ ⟨#[2]⟩).run Sample.oneFile
  have hok : ((replace ⟨"/f"⟩ ⟨#[2]⟩).run.run Sample.oneFile).1 = .ok () := by decide +kernel
  rw [hok] at hrun
  obtain ⟨dir, name, -, hstops, -⟩ := replace_stops Sample.wellFormed_oneFile hread ⟨#[2]⟩
  obtain ⟨-, hended, -⟩ := hstops _ _ hrun
  exact ⟨_, Sample.wellFormed_oneFile, hread, hrun, hended rfl⟩

/-- Replacing a file is not one step for those who read it: here the file is there, and when the old
file has been made the backup, it is not. -/
theorem replace_not_atomic : ∃ x t', Sample.oneFile.WellFormed ∧
    Sample.oneFile.read ⟨"/f"⟩ = .ok ⟨#[1]⟩ ∧
    (replace ⟨"/f"⟩ ⟨#[2]⟩).run.Reaches Sample.oneFile x t' ∧
    t'.read ⟨"/f"⟩ = .error .notFound := by
  have hread : Sample.oneFile.read ⟨"/f"⟩ = .ok ⟨#[1]⟩ := by decide +kernel
  have hstat : Sample.oneFile.stat (backupOf ⟨"/f"⟩) = .error .notFound := by decide +kernel
  have hdraft : (Sample.oneFile.create (draftOf ⟨"/f"⟩)).toOption.isSome = true := by decide +kernel
  obtain ⟨t₁, hcreate⟩ := Option.isSome_iff_exists.1 hdraft
  obtain ⟨dir, name, modified, hp, hnode⟩ := Sample.wellFormed_oneFile.leads_of_read hread
  obtain ⟨hsite, -⟩ := Sample.wellFormed_oneFile.site hp ⟨modified, hnode⟩
    (Running.toOption_eq_some.1 hcreate)
  have hfree : Sample.oneFile.isDirectoryAt (dir ++ [name ++ ".bak"]) = false := by
    by_contra hdir
    obtain ⟨_, hfound⟩ := hsite.backup.exists_stat_directory_iff.2 (Bool.not_eq_false _ ▸ hdir)
    cases hstat.symm.trans hfound
  obtain ⟨x, t', hreach, hmissing⟩ := hsite.exists_reaches_missing ⟨modified, hnode⟩ hfree ⟨#[2]⟩
  exact ⟨x, t', Sample.wellFormed_oneFile, hread, hreach, hmissing⟩

end CharacterScript
