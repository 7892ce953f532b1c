import CharacterScript.Proofs.Disk.Looking
import CharacterScript.Workspace

/-!
# What a request does

A request leaves a workspace and a tree of files, whether it has an answer or fails
(`Workspace.runOn`). Reading the vocabulary touches neither the good results nor the files, and a
check changes only the good result of its own directory, and only if it succeeds
(`Workspace.Checked`). The other requests begin with a check, so what they leave follows from it.

## Runs

A request is a computation on top of the disk, with a state and with failures. Its run on a
workspace and a tree of files is one function, `Workspace.runOn`, with one equation for each way
of putting requests together. Everything else that is proved of requests uses these equations and
does not unfold a monad again.
-/

namespace CharacterScript

namespace Workspace

variable {α β ε : Type}

/-! ## Runs -/

/-- What comes of a request to a workspace. -/
structure Outcome (α : Type) where
  /-- What the client is told. -/
  answer : Except Failure α
  /-- What the workspace is left as. -/
  workspace : Workspace
  /-- What the disk is left as. -/
  files : FileTree

/-- Makes a request with these files on the disk. -/
def runOn (x : WorkspaceM α) (w : Workspace) (t : FileTree) : Outcome α :=
  let ((answer, w), t) := (x.run.run w).run t
  ⟨answer, w, t⟩

/-- Goes on after an outcome, if it has an answer. -/
def Outcome.andThen (o : Outcome α) (f : α → WorkspaceM β) : Outcome β :=
  match o.answer with
  | .ok a => runOn (f a) o.workspace o.files
  | .error e => ⟨.error e, o.workspace, o.files⟩

/-- A request with another behind it, as one computation on the disk. -/
theorem WorkspaceM.run_bind (x : WorkspaceM α) (f : α → WorkspaceM β) (w : Workspace) :
    (x >>= f).run.run w = x.run.run w >>= fun out ↦
      (ExceptT.bindCont f out.1 : StateT Workspace DiskM (Except Failure β)).run out.2 := rfl

/-- What is attempted on the disk succeeds as a request, with its outcome as the answer. -/
theorem WorkspaceM.run_attempt (x : ExceptT ε DiskM α) (w : Workspace) :
    (Disk.attempt x : WorkspaceM (Except ε α)).run.run w
      = x.run >>= fun outcome ↦ pure (Except.ok outcome, w) := by
  show (x.run >>= fun outcome ↦ pure (outcome, w)) >>= (fun out ↦ pure (Except.ok out.1, out.2)) = _
  rw [bind_assoc]
  rfl

theorem runOn_bind (x : WorkspaceM α) (f : α → WorkspaceM β) (w : Workspace) (t : FileTree) :
    runOn (x >>= f) w t = (runOn x w t).andThen f := by
  rw [runOn, WorkspaceM.run_bind, DiskM.run_bind, Outcome.andThen, runOn]
  generalize (x.run.run w).run t = out
  obtain ⟨⟨answer, w⟩, t⟩ := out
  cases answer <;> rfl

theorem runOn_attempt (x : ExceptT ε DiskM α) (w : Workspace) (t : FileTree) :
    runOn (Disk.attempt x : WorkspaceM (Except ε α)) w t
      = ⟨.ok (x.run.run t).1, w, (x.run.run t).2⟩ := by
  rw [runOn, WorkspaceM.run_attempt, DiskM.run_bind]
  rfl

@[simp] theorem runOn_pure (a : α) (w : Workspace) (t : FileTree) :
    runOn (pure a) w t = ⟨.ok a, w, t⟩ := rfl

@[simp] theorem runOn_throw (e : Failure) (w : Workspace) (t : FileTree) :
    runOn (throw e : WorkspaceM α) w t = ⟨.error e, w, t⟩ := rfl

@[simp] theorem runOn_get (w : Workspace) (t : FileTree) :
    runOn (get : WorkspaceM Workspace) w t = ⟨.ok w, w, t⟩ := rfl

@[simp] theorem runOn_modify (f : Workspace → Workspace) (w : Workspace) (t : FileTree) :
    runOn (modify f : WorkspaceM Unit) w t = ⟨.ok (), f w, t⟩ := rfl

@[simp] theorem runOn_orFail (f : ε → Failure) (x : Except ε α) (w : Workspace) (t : FileTree) :
    runOn (orFail f x) w t = ⟨x.mapError f, w, t⟩ := by
  cases x <;> rfl

theorem runOn_tryCatch (x : WorkspaceM α) (handle : Failure → WorkspaceM α) (w : Workspace)
    (t : FileTree) : runOn (tryCatch x handle) w t =
      match (runOn x w t).answer with
      | .ok _ => runOn x w t
      | .error e => runOn (handle e) (runOn x w t).workspace (runOn x w t).files := by
  have hcatch : (tryCatch x handle).run.run w = x.run.run w >>= fun out ↦
      match out.1 with
      | .ok a => pure (Except.ok a, out.2)
      | .error e => (handle e).run.run out.2 := by
    refine congrArg (x.run.run w >>= ·) (funext fun out ↦ ?_)
    obtain ⟨answer, w⟩ := out
    cases answer <;> rfl
  rw [runOn, hcatch, DiskM.run_bind, runOn]
  generalize (x.run.run w).run t = out
  obtain ⟨⟨answer, w⟩, t⟩ := out
  cases answer <;> rfl

theorem runOn_onProject {x : ProjectM α} (h : Looks x) (w : Workspace) (t : FileTree) :
    runOn (onProject x) w t = ⟨(seen x t).mapError .project, w, t⟩ := by
  rw [onProject, runOn_bind, runOn_attempt, h.run t, Outcome.andThen, seen, DiskM.seen]
  cases (x.run.run t).1 <;> rfl

/-! ## The vocabulary -/

/-- The good results, the settings and the files are what they were. -/
structure Outcome.Quiet (o : Outcome α) (w : Workspace) (t : FileTree) : Prop where
  /-- The settings stay. -/
  settings : o.workspace.settings = w.settings
  /-- The good results stay. -/
  good : o.workspace.good = w.good
  /-- The files stay. -/
  files : o.files = t

theorem quiet_bind {x : WorkspaceM α} {f : α → WorkspaceM β} {w : Workspace} {t : FileTree}
    (h : (runOn x w t).Quiet w t) (hf : ∀ a w, (runOn (f a) w t).Quiet w t) :
    (runOn (x >>= f) w t).Quiet w t := by
  rw [runOn_bind, Outcome.andThen]
  split
  next a _ =>
    have hnext := hf a (runOn x w t).workspace
    rw [h.files]
    exact ⟨hnext.settings.trans h.settings, hnext.good.trans h.good, hnext.files⟩
  next e _ => exact ⟨h.settings, h.good, h.files⟩

theorem quiet_vocabulary (w : Workspace) (t : FileTree) : (runOn vocabulary w t).Quiet w t := by
  rw [vocabulary]
  refine quiet_bind ⟨rfl, rfl, rfl⟩ fun w' w ↦ ?_
  cases w'.settings.vocabularyFile with
  | none => exact ⟨rfl, rfl, rfl⟩
  | some file =>
    refine quiet_bind ?_ fun outcome w ↦ quiet_bind ?_ fun stat w ↦ ?_
    · rw [runOn_attempt]
      exact ⟨rfl, rfl, (looks_stat file).run t⟩
    · rw [runOn_orFail]
      exact ⟨rfl, rfl, rfl⟩
    · split
      · exact ⟨rfl, rfl, rfl⟩
      · refine quiet_bind ?_ fun text w ↦ quiet_bind ?_ fun v w ↦ ⟨rfl, rfl, rfl⟩
        · rw [runOn_onProject (looks_readText file).onDisk]
          exact ⟨rfl, rfl, rfl⟩
        · rw [runOn_orFail]
          exact ⟨rfl, rfl, rfl⟩

/-! ## Checks

All of a check but its last step looks only. So what it leaves is decided by whether it gets
there. -/

/-- What a check does before it records its result. -/
def compiling (dir : Path) : WorkspaceM Compiled := do
  let v ← vocabulary
  let settings := (← get).settings
  let dirs ← onProject (Project.loadChain settings dir)
  orFail id (compileChain settings v dirs)

theorem check_eq (dir : Path) :
    check dir = compiling dir >>= fun c ↦ modify (·.record dir c) >>= fun _ ↦ pure c := by
  rw [check, compiling]
  simp only [bind_assoc]

theorem quiet_compiling (dir : Path) (w : Workspace) (t : FileTree) :
    (runOn (compiling dir) w t).Quiet w t := by
  refine quiet_bind (quiet_vocabulary w t) fun v w ↦ quiet_bind ⟨rfl, rfl, rfl⟩ fun w' w ↦
    quiet_bind ?_ fun dirs w ↦ ?_
  · rw [runOn_onProject (Project.looks_loadChain _ dir)]
    exact ⟨rfl, rfl, rfl⟩
  · rw [runOn_orFail]
    exact ⟨rfl, rfl, rfl⟩

/-- What a check of a directory leaves: its result is recorded if it has one, and nothing else is
touched. -/
structure Checked (o : Outcome Compiled) (dir : Path) (w : Workspace) (t : FileTree) : Prop where
  /-- The settings stay. -/
  settings : o.workspace.settings = w.settings
  /-- A result becomes the last good one of its directory. -/
  good_of_ok : ∀ c, o.answer = .ok c → o.workspace.good = (w.record dir c).good
  /-- A failure leaves the good results as they are. -/
  good_of_error : ∀ e, o.answer = .error e → o.workspace.good = w.good
  /-- The files stay. -/
  files : o.files = t

theorem checked_check (dir : Path) (w : Workspace) (t : FileTree) :
    Checked (runOn (check dir) w t) dir w t := by
  have hquiet := quiet_compiling dir w t
  rw [check_eq, runOn_bind, Outcome.andThen]
  cases (runOn (compiling dir) w t).answer with
  | ok c =>
    dsimp only
    rw [runOn_bind, runOn_modify, Outcome.andThen]
    dsimp only
    rw [runOn_pure]
    refine ⟨hquiet.settings, fun c' hc ↦ ?_, fun e he ↦ (nomatch he), hquiet.files⟩
    cases hc
    simp only [record, hquiet.good]
  | error e =>
    exact ⟨hquiet.settings, fun c hc ↦ (nomatch hc), fun _ _ ↦ hquiet.good, hquiet.files⟩

/-! ## The last good result

Results are kept in a list by directory, and two texts may name one directory. A record takes the
place of the one that names the same. -/

theorem lastGood?_of_good {w w' : Workspace} (h : w'.good = w.good) (dir : Path) :
    w'.lastGood? dir = w.lastGood? dir := by
  rw [lastGood?, h, lastGood?]

/-- A path that is the same as one of two different paths is not the same as the other. -/
theorem different_of_same {p q r : Path} (hq : p.same q = true) (hr : r.same q = false) :
    p.same r = false := by
  simp only [Path.same, beq_iff_eq, beq_eq_false_iff_ne] at hq hr ⊢
  rw [hq]
  exact fun h ↦ hr h.symm

theorem lastGood?_record (w : Workspace) (dir : Path) (c : Compiled) (dir' : Path) :
    (w.record dir c).lastGood? dir' = if dir.same dir' then some c else w.lastGood? dir' := by
  rw [lastGood?, record, List.find?_cons]
  cases hsame : dir.same dir' with
  | true => rfl
  | false =>
    -- what was dropped was not looked for
    have hkeep : (w.good.filter (!·.1.same dir)).find? (·.1.same dir')
        = w.good.find? (·.1.same dir') := by
      rw [List.find?_filter]
      refine congrArg (List.find? · w.good) (funext fun entry ↦ ?_)
      cases hentry : entry.1.same dir' with
      | false => simp
      | true => simp [different_of_same hentry hsame]
    rw [if_neg Bool.false_ne_true, lastGood?]
    exact congrArg _ hkeep

/-- The present result of a directory, or the last good one if it does not compile. -/
theorem runOn_current (dir : Path) (w : Workspace) (t : FileTree) :
    let o := runOn (check dir) w t
    runOn (current dir) w t = match o.answer with
      | .ok _ => o
      | .error e => ⟨(w.lastGood? dir).elim (.error e) .ok, o.workspace, o.files⟩ := by
  dsimp only
  rw [current, runOn_tryCatch]
  cases he : (runOn (check dir) w t).answer with
  | ok c => rfl
  | error e =>
    have hgood := (checked_check dir w t).good_of_error e he
    dsimp only
    rw [runOn_bind, runOn_get, Outcome.andThen]
    dsimp only
    rw [lastGood?_of_good hgood]
    cases w.lastGood? dir <;> rfl

end Workspace

end CharacterScript
