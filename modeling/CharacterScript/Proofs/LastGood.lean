import CharacterScript.Proofs.Requests

/-!
# The last good result

Requests to a workspace follow one another while the files change in any way between them. Each
begins with a check of its directory, and leaves the workspace that the check leaves
(`Request.workspace_perform`). So after every history the last good result of a directory is that of
the latest check of it that succeeded, and questions about names are answered from it while the
directory does not compile.

## Events

A history is a list of events: a request is made, or the files become others. Nothing is said
about the second kind, so between two requests anything may happen on the disk, and a directory
that compiled may be broken, mended or gone.

Requests are run as they are defined, on a workspace and a tree of files. What a history leaves is
put together from these runs, and the answer that a request would get behind it is one more run.
The only thing that has to be found out about requests is where in them the check is, and what
they do to the workspace besides.
-/

namespace CharacterScript

namespace Workspace

/-! ## Histories

The latest success of a directory is a property of a history, defined without any workspace: the
last check of it that has a result. -/

/-- What can be asked about a script directory. -/
inductive Request where
  | check
  | build
  | symbols
  | symbolsIn (callable : String)
  | definition (name : String)

namespace Request

abbrev Answer : Request → Type
  | check => Compiled
  | build => List Path
  | symbols | symbolsIn _ => List Symbol
  | definition _ => Identifier

/-- Makes a request about a directory. -/
def perform (dir : Path) : (r : Request) → WorkspaceM r.Answer
  | check => Workspace.check dir
  | build => Workspace.build dir
  | symbols => Workspace.symbols dir
  | symbolsIn callable => Workspace.symbolsIn dir callable
  | definition name => Workspace.definition dir name

end Request

/-- Something that happens to a workspace or to the files. -/
inductive Event where
  | request (r : Request) (dir : Path)
  /-- The files become any others. -/
  | edit (files : FileTree)

/-- A workspace and the files it is asked about. -/
structure Situation where
  /-- What the server keeps. -/
  workspace : Workspace
  /-- What is on the disk. -/
  files : FileTree

/-- The last success among checks of the same directory, which are listed as they were made. -/
def lastSuccess? (checks : List (Path × Except Failure Compiled)) (dir : Path) : Option Compiled :=
  checks.reverse.findSome? fun (d, answer) ↦ if d.same dir then answer.toOption else none

namespace Situation

/-- What comes of a request made now. -/
def outcome (s : Situation) (r : Request) (dir : Path) : Outcome r.Answer :=
  runOn (r.perform dir) s.workspace s.files

def next (s : Situation) : Event → Situation
  | .request r dir => ⟨(s.outcome r dir).workspace, (s.outcome r dir).files⟩
  | .edit files => ⟨s.workspace, files⟩

/-- The situation at the end of a history. -/
def after (s : Situation) (events : List Event) : Situation :=
  events.foldl next s

/-- The checks that an event brings with it: a request begins with one of its directory. -/
def checksOf (s : Situation) : Event → List (Path × Except Failure Compiled)
  | .request _ dir => [(dir, (s.outcome .check dir).answer)]
  | .edit _ => []

/-- All checks made in the course of a history. -/
def checks (s : Situation) : List Event → List (Path × Except Failure Compiled)
  | [] => []
  | e :: events => s.checksOf e ++ (s.next e).checks events

/-- What there is to answer from: what the directory compiles to now, or its last good result, or
else the reason why it does not compile. -/
def current (s : Situation) (dir : Path) : Except Failure Compiled :=
  match (s.outcome .check dir).answer with
  | .ok c => .ok c
  | .error e => (s.workspace.lastGood? dir).elim (.error e) .ok

end Situation

/-! ## Requests begin with a check

Building writes files and leaves the workspace alone; questions about names only look at a result.
So all that a request leaves in a workspace is from its check. -/

theorem runOn_build_of_error {dir : Path} {w : Workspace} {t : FileTree} {e : Failure}
    (he : (runOn (check dir) w t).answer = .error e) :
    runOn (build dir) w t = ⟨.error e, (runOn (check dir) w t).workspace, t⟩ := by
  rw [build, runOn_bind, Outcome.andThen, he, (checked_check dir w t).files]

/-- Writing images is no business of the workspace. -/
theorem workspace_onProject {α : Type} (x : ProjectM α) (w : Workspace) (t : FileTree) :
    (runOn (onProject x) w t).workspace = w := by
  rw [onProject, runOn_bind, runOn_attempt, Outcome.andThen]
  dsimp only
  cases (x.run.run t).1 <;> rfl

theorem workspace_build (dir : Path) (w : Workspace) (t : FileTree) :
    (runOn (build dir) w t).workspace = (runOn (check dir) w t).workspace := by
  rw [build, runOn_bind, Outcome.andThen]
  cases (runOn (check dir) w t).answer with
  | error e => rfl
  | ok c =>
    dsimp only
    rw [runOn_bind, runOn_get, Outcome.andThen]
    dsimp only
    rw [runOn_bind, Outcome.andThen]
    split
    · rw [runOn_pure]
      exact workspace_onProject _ _ _
    · exact workspace_onProject _ _ _

/-- A question that is answered from a result without another look. -/
theorem runOn_current_bind {α : Type} {f : Compiled → WorkspaceM α}
    {g : Compiled → Except Failure α}
    (h : ∀ c w t, runOn (f c) w t = ⟨g c, w, t⟩) (dir : Path) (s : Situation) :
    runOn (Workspace.current dir >>= f) s.workspace s.files =
      ⟨s.current dir >>= g, (s.outcome .check dir).workspace, (s.outcome .check dir).files⟩ := by
  have hcheck : s.outcome .check dir = runOn (check dir) s.workspace s.files := rfl
  rw [runOn_bind, runOn_current, Situation.current, hcheck]
  cases ho : (runOn (check dir) s.workspace s.files).answer with
  | ok c =>
    dsimp only
    rw [Outcome.andThen, ho]
    exact h c _ _
  | error e =>
    dsimp only
    cases s.workspace.lastGood? dir with
    | none => rfl
    | some c => exact h c _ _

theorem outcome_symbols (s : Situation) (dir : Path) : s.outcome .symbols dir =
    ⟨s.current dir >>= fun c ↦ .ok (c.program.symbols c.vocabulary),
      (s.outcome .check dir).workspace, (s.outcome .check dir).files⟩ :=
  runOn_current_bind (fun _ _ _ ↦ rfl) dir s

theorem outcome_symbolsIn (s : Situation) (dir : Path) (callable : String) :
    s.outcome (.symbolsIn callable) dir =
      ⟨s.current dir >>= fun c ↦ (c.program.bodyOf? callable).elim (.error (.noCallable callable))
          fun scope ↦ .ok (c.program.symbolsIn c.vocabulary scope),
        (s.outcome .check dir).workspace, (s.outcome .check dir).files⟩ := by
  refine runOn_current_bind (fun c w t ↦ ?_) dir s
  cases c.program.bodyOf? callable <;> rfl

theorem outcome_definition (s : Situation) (dir : Path) (name : String) :
    s.outcome (.definition name) dir =
      ⟨s.current dir >>= fun c ↦ (c.program.definition? name).elim (.error (.noDefinition name))
        .ok, (s.outcome .check dir).workspace, (s.outcome .check dir).files⟩ := by
  refine runOn_current_bind (fun c w t ↦ ?_) dir s
  cases c.program.definition? name <;> rfl

/-- A request leaves the workspace that its check leaves. -/
theorem Request.workspace_perform (r : Request) (dir : Path) (s : Situation) :
    (s.outcome r dir).workspace = (s.outcome .check dir).workspace := by
  cases r with
  | check => rfl
  | build => exact workspace_build dir s.workspace s.files
  | symbols => rw [outcome_symbols]
  | symbolsIn callable => rw [outcome_symbolsIn]
  | definition name => rw [outcome_definition]

/-! ## The last success -/

theorem lastSuccess?_append (first second : List (Path × Except Failure Compiled)) (dir : Path) :
    lastSuccess? (first ++ second) dir = (lastSuccess? second dir).or (lastSuccess? first dir) := by
  rw [lastSuccess?, List.reverse_append, List.findSome?_append]
  rfl

namespace Situation

/-- The last good result after a request is that of its check, if it is a success for the same
directory, and the one before otherwise. -/
theorem lastGood?_next (s : Situation) (e : Event) (dir : Path) :
    (s.next e).workspace.lastGood? dir
      = (lastSuccess? (s.checksOf e) dir).or (s.workspace.lastGood? dir) := by
  cases e with
  | edit files => rfl
  | request r d =>
    have hchecked : Checked (s.outcome .check d) d s.workspace s.files :=
      checked_check d s.workspace s.files
    have hlast : lastSuccess? (s.checksOf (.request r d)) dir
        = if d.same dir then (s.outcome .check d).answer.toOption else none := by
      rw [checksOf, lastSuccess?, List.reverse_singleton, List.findSome?_singleton]
    rw [hlast, next, Request.workspace_perform]
    dsimp only
    cases ho : (s.outcome .check d).answer with
    | error e =>
      rw [lastGood?_of_good (hchecked.good_of_error e ho)]
      cases d.same dir <;> rfl
    | ok c =>
      rw [lastGood?_of_good (hchecked.good_of_ok c ho), lastGood?_record]
      cases d.same dir <;> rfl

theorem lastGood?_after (s : Situation) (events : List Event) (dir : Path) :
    (s.after events).workspace.lastGood? dir
      = (lastSuccess? (s.checks events) dir).or (s.workspace.lastGood? dir) := by
  induction events generalizing s with
  | nil => rfl
  | cons e events ih =>
    rw [after, List.foldl_cons, ← after, ih, lastGood?_next, checks, lastSuccess?_append,
      Option.or_assoc]

end Situation

/-! ## Every history -/

/-- However requests and edits of the files follow one another: the last good result of a directory
is that of the latest successful check of it, a request whose check fails leaves all good results as
they are, questions about names are answered from what the directory compiles to now or else from
its last good result, and a build whose check fails leaves the files as they are. -/
theorem lastGood_of_history (settings : Settings) (files : FileTree) (events : List Event) :
    let start : Situation := ⟨Workspace.new settings, files⟩
    let s := start.after events
    (∀ dir, s.workspace.lastGood? dir = lastSuccess? (start.checks events) dir)
    ∧ (∀ r dir e, (s.outcome .check dir).answer = .error e →
        (s.outcome r dir).workspace.good = s.workspace.good)
    ∧ (∀ dir, (s.outcome .symbols dir).answer
        = s.current dir >>= fun c ↦ .ok (c.program.symbols c.vocabulary))
    ∧ (∀ dir callable, (s.outcome (.symbolsIn callable) dir).answer
        = s.current dir >>= fun c ↦
            (c.program.bodyOf? callable).elim (.error (.noCallable callable))
            fun scope ↦ .ok (c.program.symbolsIn c.vocabulary scope))
    ∧ (∀ dir name, (s.outcome (.definition name) dir).answer
        = s.current dir >>= fun c ↦
            (c.program.definition? name).elim (.error (.noDefinition name)) .ok)
    ∧ (∀ dir e, (s.outcome .check dir).answer = .error e →
        (s.outcome .build dir).answer = .error e ∧ (s.outcome .build dir).files = s.files) := by
  intro start s
  refine ⟨fun dir ↦ ?_, fun r dir e he ↦ ?_, fun dir ↦ ?_, fun dir callable ↦ ?_, fun dir name ↦ ?_,
    fun dir e he ↦ ?_⟩
  · rw [start.lastGood?_after events dir]
    exact Option.or_none
  · rw [Request.workspace_perform]
    exact (checked_check dir s.workspace s.files).good_of_error e he
  · rw [outcome_symbols]
  · rw [outcome_symbolsIn]
  · rw [outcome_definition]
  · have hbuild : s.outcome .build dir = _ := runOn_build_of_error he
    rw [hbuild]
    exact ⟨rfl, rfl⟩

/-- A vocabulary with nothing but the command that every body ends with, and one script
directory. -/
private def heroFiles (modified : Int) (text : String) : FileTree :=
  { entries := [(["names"], .file "cmd Loopback: 0x01".toUTF8 0), (["hero"], .directory 0),
      (["hero", "main.rai"], .file text.toUTF8 modified)] }

private def heroFiles₀ : FileTree :=
  heroFiles 1 "script main() { } script jump() { }"

/-- The script compiles, is edited so that it does not any more, and is checked again. -/
private def breaking : List Event :=
  [.request .check ⟨"/hero"⟩, .edit (heroFiles 2 "script main() { } script jump("),
    .request .check ⟨"/hero"⟩]

private def heroSettings : Settings :=
  { vocabularyFile := some ⟨"/names"⟩ }

/-- What that leads to. -/
private def broken : Situation :=
  Situation.after ⟨Workspace.new heroSettings, heroFiles₀⟩ breaking

theorem lastGood_of_history_broken :
    ∃ c e, broken.workspace.lastGood? ⟨"/hero"⟩ = some c
      ∧ (broken.outcome .check ⟨"/hero"⟩).answer = .error e
      ∧ (broken.outcome .symbols ⟨"/hero"⟩).answer = .ok (c.program.symbols c.vocabulary)
      ∧ (c.program.symbols c.vocabulary).map (·.name) = ["Loopback", "jump", "main"]
      ∧ (broken.outcome (.definition "jump") ⟨"/hero"⟩).workspace.good = broken.workspace.good
      ∧ (broken.outcome .build ⟨"/hero"⟩).answer = .error e
      ∧ (broken.outcome .build ⟨"/hero"⟩).files = broken.files := by
  -- the first of the two checks succeeds, and at the end there is none that does
  obtain ⟨hsuccess, hfails⟩ :
      (lastSuccess? (Situation.checks ⟨Workspace.new heroSettings, heroFiles₀⟩ breaking)
        ⟨"/hero"⟩).map (fun c ↦ (c.program.symbols c.vocabulary).map (·.name))
          = some ["Loopback", "jump", "main"] ∧
      (broken.outcome .check ⟨"/hero"⟩).answer.toOption.isNone = true := by
    decide +kernel
  obtain ⟨c, hc, hnames⟩ := Option.map_eq_some_iff.1 hsuccess
  obtain ⟨hlast, hgood, hsymbols, -, -, hbuild⟩ :=
    lastGood_of_history heroSettings heroFiles₀ breaking
  have hkept : broken.workspace.lastGood? ⟨"/hero"⟩ = some c := (hlast _).trans hc
  obtain ⟨e, he⟩ : ∃ e, (broken.outcome .check ⟨"/hero"⟩).answer = .error e := by
    cases hanswer : (broken.outcome .check ⟨"/hero"⟩).answer with
    | ok c =>
      rw [hanswer] at hfails
      cases hfails
    | error e => exact ⟨e, rfl⟩
  have hcurrent : broken.current ⟨"/hero"⟩ = .ok c := by
    rw [Situation.current, he, hkept]
    rfl
  have hanswer : (broken.outcome .symbols ⟨"/hero"⟩).answer =
      .ok (c.program.symbols c.vocabulary) := by
    refine (hsymbols _).trans ?_
    rw [← broken, hcurrent]
    rfl
  exact ⟨c, e, hkept, he, hanswer, hnames, hgood _ _ e he, hbuild _ e he⟩

end Workspace

end CharacterScript
