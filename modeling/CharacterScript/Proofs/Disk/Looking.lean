import CharacterScript.Disk.Tree
import CharacterScript.Project
import CharacterScript.Proofs.Computation

/-!
# Computations that only look

Most of what is asked of a disk does not change it. A computation that only asks such questions
leaves every tree of files as it was (`DiskM.Looks.run`), so on a tree it comes down to its answer,
and a sequence of such computations to a sequence of answers (`seen_bind`). Finding a chain of
script directories and reading it is of this kind.

## Two layers

The computations of a project can fail, with an error of their own and not one of the disk. For
them looking is said once more, with the answer being a success or an error, and each way to put
them together is shown to be one of the computations underneath. From there on no proof about a
project mentions the disk as a state: the tree is a parameter, and a computation is what it
answers.
-/

namespace CharacterScript

/-- Whether a question leaves the disk as it is, whatever the answer. -/
def Query.looks : Query → Bool
  | .create _ | .write _ _ | .rename _ _ | .makeDir _ => false
  | .stat _ | .realPath _ | .read _ | .list _ | .currentDir | .extent => true

theorem FileTree.answer_of_looks (t : FileTree) {q : Query} (h : q.looks = true) :
    (t.answer q).2 = t := by
  cases q with
  | create | write | rename | makeDir => cases h
  | stat | realPath | read | list | currentDir | extent => rfl

namespace DiskM

variable {α β : Type}

/-- All questions that may come up leave the disk as it is. -/
def Looks : DiskM α → Prop
  | .done _ => True
  | .ask q next => q.looks = true ∧ ∀ a, (next a).Looks

theorem Looks.run {x : DiskM α} (h : x.Looks) (t : FileTree) : (x.run t).2 = t := by
  induction x with
  | done a => rfl
  | ask q next ih =>
    rw [run_ask, t.answer_of_looks h.1]
    exact ih _ (h.2 _)

theorem Looks.bind {x : DiskM α} {f : α → DiskM β} (h : x.Looks) (hf : ∀ a, (f a).Looks) :
    (x >>= f).Looks := by
  induction x with
  | done a => exact hf a
  | ask q next ih => exact ⟨h.1, fun a ↦ ih a (h.2 a)⟩

/-- What a computation answers on a tree. -/
def seen (x : DiskM α) (t : FileTree) : α :=
  (x.run t).1

@[simp] theorem seen_pure (a : α) (t : FileTree) : (pure a : DiskM α).seen t = a := rfl

theorem Looks.seen_bind {x : DiskM α} (h : x.Looks) (f : α → DiskM β) (t : FileTree) :
    (x >>= f).seen t = (f (x.seen t)).seen t := by
  rw [seen, run_bind, h.run t]
  rfl

end DiskM

/-! ## Computations that may fail -/

variable {ε ε' α β : Type}

/-- A computation that may fail and only looks. -/
def Looks (x : ExceptT ε DiskM α) : Prop :=
  DiskM.Looks x.run

/-- The outcome of a computation on a tree. -/
def seen (x : ExceptT ε DiskM α) (t : FileTree) : Except ε α :=
  DiskM.seen x.run t

namespace Looks

theorem pure (a : α) : Looks (pure a : ExceptT ε DiskM α) :=
  trivial

theorem throw (e : ε) : Looks (throw e : ExceptT ε DiskM α) :=
  trivial

theorem bind {x : ExceptT ε DiskM α} {f : α → ExceptT ε DiskM β} (h : Looks x)
    (hf : ∀ a, Looks (f a)) : Looks (x >>= f) := by
  refine DiskM.Looks.bind h fun outcome ↦ ?_
  cases outcome with
  | ok a => exact hf a
  | error e => exact trivial

theorem lift {x : DiskM α} (h : x.Looks) : Looks (liftM x : ExceptT ε DiskM α) :=
  DiskM.Looks.bind h fun _ ↦ trivial

theorem adapt (f : ε → ε') {x : ExceptT ε DiskM α} (h : Looks x) : Looks (ExceptT.adapt f x) :=
  DiskM.Looks.bind h fun _ ↦ trivial

end Looks

@[simp] theorem seen_pure (a : α) (t : FileTree) :
    seen (pure a : ExceptT ε DiskM α) t = .ok a := rfl

@[simp] theorem seen_throw (e : ε) (t : FileTree) :
    seen (throw e : ExceptT ε DiskM α) t = .error e := rfl

theorem seen_bind {x : ExceptT ε DiskM α} (h : Looks x) (f : α → ExceptT ε DiskM β) (t : FileTree) :
    seen (x >>= f) t = seen x t >>= fun a ↦ seen (f a) t := by
  have hnext : seen (x >>= f) t = DiskM.seen (ExceptT.bindCont f (seen x t)) t :=
    DiskM.Looks.seen_bind h _ t
  rw [hnext]
  cases seen x t <;> rfl

theorem seen_lift {x : DiskM α} (h : x.Looks) (t : FileTree) :
    seen (liftM x : ExceptT ε DiskM α) t = .ok (x.seen t) :=
  DiskM.Looks.seen_bind h _ t

theorem seen_adapt (f : ε → ε') {x : ExceptT ε DiskM α} (h : Looks x) (t : FileTree) :
    seen (ExceptT.adapt f x) t = (seen x t).mapError f :=
  DiskM.Looks.seen_bind h _ t

theorem Looks.onDisk {x : ExceptT DiskError DiskM α} (h : Looks x) : Looks (onDisk x) :=
  .adapt _ h

theorem seen_onDisk {x : ExceptT DiskError DiskM α} (h : Looks x) (t : FileTree) :
    seen (onDisk x) t = (seen x t).mapError .disk :=
  seen_adapt _ h t

theorem mapError_eq_ok {f : ε → ε'} {x : Except ε α} {a : α} : x.mapError f = .ok a ↔
    x = .ok a := by
  constructor
  · intro h
    cases x with
    | ok b =>
      cases h
      rfl
    | error e => cases h
  · rintro rfl
    rfl

/-! ## Questions

For each question that only looks: that it does, and what it answers on a tree. -/

theorem looks_stat (p : Path) : Looks (Disk.stat p) :=
  ⟨rfl, fun _ ↦ trivial⟩

theorem looks_realPath (p : Path) : Looks (Disk.realPath p) :=
  ⟨rfl, fun _ ↦ trivial⟩

theorem looks_read (p : Path) : Looks (Disk.read p) :=
  ⟨rfl, fun _ ↦ trivial⟩

theorem looks_list (p : Path) : Looks (Disk.list p) :=
  ⟨rfl, fun _ ↦ trivial⟩

@[simp] theorem seen_stat (p : Path) (t : FileTree) : seen (Disk.stat p) t = t.stat p := rfl

@[simp] theorem seen_realPath (p : Path) (t : FileTree) :
    seen (Disk.realPath p) t = t.realPath p := rfl

@[simp] theorem seen_read (p : Path) (t : FileTree) : seen (Disk.read p) t = t.read p := rfl

@[simp] theorem seen_list (p : Path) (t : FileTree) : seen (Disk.list p) t = t.list p := rfl

theorem looks_extent : Disk.extent.Looks :=
  ⟨rfl, fun _ ↦ trivial⟩

theorem looks_type? (p : Path) : (Disk.type? p).Looks := by
  refine .bind (.bind (looks_stat p) fun _ ↦ trivial) fun outcome ↦ ?_
  cases outcome <;> exact trivial

theorem looks_isFile (p : Path) : (Disk.isFile p).Looks :=
  .bind (looks_type? p) fun _ ↦ trivial

theorem looks_readText (p : Path) : Looks (Disk.readText p) := by
  refine .bind (looks_read p) fun data ↦ ?_
  split
  · exact .pure _
  · exact .throw _

theorem fromUTF8?_toUTF8 (text : String) : String.fromUTF8? text.toUTF8 = some text :=
  dif_pos text.isValidUTF8

theorem seen_readText {p : Path} {t : FileTree} {text : String} :
    seen (Disk.readText p) t = .ok text ↔
      ∃ data, t.read p = .ok data ∧ String.fromUTF8? data = some text := by
  rw [Disk.readText, seen_bind (looks_read p), seen_read, Running.exceptBind_eq_ok]
  refine exists_congr fun data ↦ and_congr_right fun _ ↦ ?_
  cases String.fromUTF8? data with
  | none => simp
  | some s => simp

/-! ## Projects

Loading a chain is taken apart into what is done in one directory and the loading of what is
below. The first part is where `Project.entryText` comes from. -/

namespace Project

theorem looks_filesAmong (paths : List Path) : (filesAmong paths).Looks := by
  induction paths with
  | nil => exact trivial
  | cons p paths ih => exact .bind (looks_isFile p) fun _ ↦ .bind ih fun _ ↦ trivial

theorem looks_sourceFiles (settings : Settings) (dir : Path) : Looks (sourceFiles settings dir) :=
  .bind (.adapt _ (looks_list dir)) fun _ ↦ .lift (looks_filesAmong _)

theorem looks_readAll (paths : List Path) : Looks (readAll paths) := by
  induction paths with
  | nil => exact .pure _
  | cons p paths ih => exact .bind (.adapt _ (looks_readText p)) fun _ ↦ .bind ih fun _ ↦ .pure _

theorem looks_readDir (settings : Settings) (dir : Path) (base : Option String) :
    Looks (readDir settings dir base) :=
  .bind (looks_sourceFiles settings dir) fun _ ↦ .bind (looks_readAll _) fun _ ↦ .pure _

/-- The text of the entry file of a directory. -/
def entryText (settings : Settings) (dir : Path) : ProjectM String := do
  unless ← Disk.isFile (entryFile dir settings.entryFile) do
    throw (.noEntryFile settings.entryFile dir)
  onDisk (Disk.readText (entryFile dir settings.entryFile))

/-- What a directory builds on, by the base that its entry file names. -/
def loadBelow (settings : Settings) (steps : Nat) (visited : List Path) (real : Path) :
    Option String → ProjectM (List ScriptDir)
  | some b => loadFrom settings steps (real :: visited) (baseDir real b)
  | none => pure []

theorem loadFrom_succ (settings : Settings) (steps : Nat) (visited : List Path) (dir : Path) :
    loadFrom settings (steps + 1) visited dir = (do
      let real ← ExceptT.adapt (ProjectError.noDirectory dir) (Disk.realPath dir)
      if visited.contains real then throw (.cycle real) else do
        let base := scanBase? (← entryText settings real)
        let below ← loadBelow settings steps visited real base
        let own ← readDir settings real base
        return below ++ [own]) := by
  rw [loadFrom]
  refine bind_congr fun real ↦ ?_
  split
  · rfl
  · rw [entryText]
    simp only [bind_assoc]
    refine bind_congr fun isFile ↦ ?_
    cases isFile with
    | false => rfl
    | true =>
      simp only [if_true, pure_bind]
      refine bind_congr fun text ↦ ?_
      cases scanBase? text with
      | none => rfl
      | some b => rfl

theorem looks_entryText (settings : Settings) (dir : Path) : Looks (entryText settings dir) := by
  refine .bind (.lift (looks_isFile _)) fun isFile ↦ ?_
  cases isFile with
  | false => exact .throw _
  | true => exact .adapt _ (looks_readText _)

theorem looks_loadFrom (settings : Settings) (steps : Nat) (visited : List Path) (dir : Path) :
    Looks (loadFrom settings steps visited dir) := by
  induction steps generalizing visited dir with
  | zero => exact .throw _
  | succ steps ih =>
    rw [loadFrom_succ]
    refine .bind (.adapt _ (looks_realPath dir)) fun real ↦ ?_
    split
    · exact .throw _
    · refine .bind (looks_entryText settings real) fun text ↦ .bind ?_ fun below ↦
        .bind (looks_readDir settings real _) fun own ↦ .pure _
      cases scanBase? text with
      | none => exact .pure _
      | some b => exact ih _ _

theorem looks_loadBelow (settings : Settings) (steps : Nat) (visited : List Path) (real : Path)
    (base : Option String) : Looks (loadBelow settings steps visited real base) := by
  cases base with
  | none => exact .pure _
  | some b => exact looks_loadFrom settings steps _ _

theorem looks_loadChain (settings : Settings) (dir : Path) : Looks (loadChain settings dir) :=
  .bind (.lift looks_extent) fun _ ↦ looks_loadFrom settings _ _ _

end Project

end CharacterScript
