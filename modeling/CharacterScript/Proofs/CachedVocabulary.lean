import CharacterScript.Proofs.Requests

/-!
# The vocabulary a workspace remembers

A workspace keeps the vocabulary it has read together with the modification time of its file, and
reads the file again only when that time is another one. It only ever remembers what could be read
(`Workspace.Remembers`), and a request that fails leaves it as it was. So if the modification time
tells the states of the file apart, every request in a history is answered by what reading the file
at that moment would give (`Workspace.answers_eq_map`): also after the file was missing, or broken,
or was put back with an old modification time.

## Histories

A history is a list of states that a disk is in when the requests come, with nothing said about
how it came from one to the next. The one assumption is the one that remembering rests on: two
states in which the vocabulary file has the same modification time have the same file there. It is
made of the states in the history only (`Path.TellsApart`).

What is remembered was read in some earlier state, and this state is in the history. That is the
invariant, and a request keeps it whether it is answered or not.

## A request that looks

A request for the vocabulary asks the disk what is there and changes nothing, so its answer is a
function of the state (`DiskM.Looks`). This is proved from its questions, once for each way that
questions are put together.
-/

namespace CharacterScript

/-- What a disk answers while nothing is written to it. -/
abbrev DiskState := (q : Query) → q.Answer

namespace DiskState

def stat (d : DiskState) (p : Path) : Except DiskError Stat :=
  d (.stat p)

def read (d : DiskState) (p : Path) : Except DiskError ByteArray :=
  d (.read p)

end DiskState

variable {ε α β : Type}

namespace DiskM

/-- The outcome of a computation whose questions are answered by a disk in this state. -/
def against (d : DiskState) : DiskM α → α
  | done a => a
  | ask q next => (next (d q)).against d

theorem against_bind (x : DiskM α) (f : α → DiskM β) (d : DiskState) :
    (x >>= f).against d = (f (x.against d)).against d := by
  induction x with
  | done a => rfl
  | ask q next ih => exact ih _

end DiskM

namespace FileTree

/-- A tree of files as a state of a disk. -/
def state (t : FileTree) : DiskState := fun q ↦
  (t.answer q).1

end FileTree

/-- A computation that only looks finds a tree of files as a disk in its state. -/
theorem DiskM.Looks.run_eq {x : DiskM α} (h : x.Looks) (t : FileTree) :
    x.run t = (x.against t.state, t) := by
  induction x with
  | done a => rfl
  | ask q next ih =>
    rw [run_ask, t.answer_of_looks h.1, ih _ (h.2 _)]
    rfl

/-! ## Reading a vocabulary file

The file is asked for its time first and read after that, in the same state. So the time that is
kept is the time of the text that is kept. -/

namespace Vocabulary

/-- The vocabulary in a file, read without remembering anything. -/
def readFile (file : Path) (d : DiskState) : Except Failure Vocabulary := do
  let _ ← (d.stat file).mapError (.vocabularyFile file)
  let text ← ((Disk.readText file).run.against d).mapError (.project ∘ .disk)
  (parse text).mapError .vocabulary

/-- The file exists, can be read, and holds a text that reads as this vocabulary. -/
def IsIn (v : Vocabulary) (file : Path) (d : DiskState) : Prop :=
  ∃ stat bytes text, d.stat file = .ok stat ∧ d.read file = .ok bytes ∧
    String.fromUTF8? bytes = some text ∧ parse text = .ok v

end Vocabulary

/-- If the file has the same modification time in both states, it can be read in both or in neither,
and has the same contents. -/
def Path.TellsApart (file : Path) (d d' : DiskState) : Prop :=
  ∀ stat stat', d.stat file = .ok stat → d'.stat file = .ok stat' →
    stat.modified = stat'.modified → (d.read file).toOption = (d'.read file).toOption

instance (file : Path) (d d' : DiskState) : Decidable (file.TellsApart d d') :=
  letI : DecidableEq ByteArray := ByteArray.instDecidableEq
  decidable_of_iff (∀ stat ∈ (d.stat file).toOption, ∀ stat' ∈ (d'.stat file).toOption,
      stat.modified = stat'.modified → (d.read file).toOption = (d'.read file).toOption) <| by
    simp only [Option.mem_def, Running.toOption_eq_some, Path.TellsApart]
    exact forall_congr' fun _ ↦ forall_comm

theorem readText_against_eq_ok {file : Path} {d : DiskState} {text : String} :
    (Disk.readText file).run.against d = .ok text ↔
      ∃ bytes, d.read file = .ok bytes ∧ String.fromUTF8? bytes = some text := by
  refine (Eq.to_iff (congrArg (· = _) (DiskM.against_bind (Disk.read file).run _ d))).trans ?_
  show DiskM.against d (ExceptT.bindCont _ (d.read file)) = _ ↔ _
  cases d.read file with
  | error e =>
    show Except.error e = .ok text ↔ _
    simp
  | ok bytes =>
    dsimp only [ExceptT.bindCont]
    cases hutf8 : String.fromUTF8? bytes with
    | none =>
      show Except.error DiskError.notText = .ok text ↔ _
      simp [hutf8]
    | some s =>
      show Except.ok s = .ok text ↔ _
      simp [hutf8]

namespace Vocabulary

theorem readFile_eq_ok {file : Path} {d : DiskState} {v : Vocabulary} :
    readFile file d = .ok v ↔ v.IsIn file d := by
  simp only [readFile, Running.exceptBind_eq_ok, mapError_eq_ok, readText_against_eq_ok, IsIn]
  constructor
  · rintro ⟨stat, hstat, text, ⟨bytes, hread, htext⟩, hparse⟩
    exact ⟨stat, bytes, text, hstat, hread, htext, hparse⟩
  · rintro ⟨stat, bytes, text, hstat, hread, htext, hparse⟩
    exact ⟨stat, hstat, text, ⟨bytes, hread, htext⟩, hparse⟩

/-- What is in a file is still in it while its modification time says so. -/
theorem IsIn.of_tellsApart {v : Vocabulary} {file : Path} {d d' : DiskState} {stat stat' : Stat}
    (h : v.IsIn file d) (happart : file.TellsApart d d') (hstat : d.stat file = .ok stat)
    (hstat' : d'.stat file = .ok stat') (htime : stat.modified = stat'.modified) :
    v.IsIn file d' := by
  obtain ⟨_, bytes, text, -, hread, htext, hparse⟩ := h
  have hread' := happart stat stat' hstat hstat' htime
  rw [hread] at hread'
  exact ⟨stat', bytes, text, hstat', Running.toOption_eq_some.1 hread'.symm, htext, hparse⟩

end Vocabulary

namespace Workspace

/-! ## One request -/

/-- What a request to a workspace answers on a disk in this state, and the workspace it leaves. -/
def runAgainst (x : WorkspaceM α) (w : Workspace) (d : DiskState) : Except Failure α × Workspace :=
  (x.run.run w).against d

theorem runAgainst_bind (x : WorkspaceM α) (f : α → WorkspaceM β) (w : Workspace) (d : DiskState) :
    runAgainst (x >>= f) w d =
      match runAgainst x w d with
      | (.ok a, w) => runAgainst (f a) w d
      | (.error e, w) => (.error e, w) := by
  rw [runAgainst, WorkspaceM.run_bind, DiskM.against_bind, runAgainst]
  generalize (x.run.run w).against d = out
  obtain ⟨answer, w⟩ := out
  cases answer <;> rfl

theorem runAgainst_attempt (x : ExceptT ε DiskM α) (w : Workspace) (d : DiskState) :
    runAgainst (Disk.attempt x : WorkspaceM (Except ε α)) w d = (.ok (x.run.against d), w) := by
  rw [runAgainst, WorkspaceM.run_attempt, DiskM.against_bind]
  rfl

theorem runAgainst_orFail (f : ε → Failure) (x : Except ε α) (w : Workspace) (d : DiskState) :
    runAgainst (orFail f x) w d = (x.mapError f, w) := by
  cases x <;> rfl

theorem runAgainst_onDisk (x : ExceptT DiskError DiskM α) (w : Workspace) (d : DiskState) :
    runAgainst (onProject (onDisk x)) w d
      = ((x.run.against d).mapError (.project ∘ .disk), w) := by
  have hadapt : (onDisk x).run.against d = (x.run.against d).mapError .disk :=
    DiskM.against_bind x.run _ d
  rw [onProject, runAgainst_bind, runAgainst_attempt, hadapt]
  cases x.run.against d <;> rfl

/-- What a request for the vocabulary comes to when there is a vocabulary file: only a file that was
read changes what is remembered. -/
theorem runAgainst_vocabulary {w : Workspace} {file : Path}
    (hfile : w.settings.vocabularyFile = some file)
    (d : DiskState) : runAgainst vocabulary w d =
      match d.stat file with
      | .error e => (.error (.vocabularyFile file e), w)
      | .ok stat =>
        match w.cached.filter (·.modified = stat.modified), Vocabulary.readFile file d with
        | some cached, _ => (.ok cached.vocabulary, w)
        | none, .error e => (.error e, w)
        | none, .ok v => (.ok v, { w with cached := some ⟨stat.modified, v⟩ }) := by
  have hget : runAgainst (get : WorkspaceM Workspace) w d = (.ok w, w) := rfl
  have hstat : (Disk.stat file).run.against d = d.stat file := rfl
  rw [vocabulary, runAgainst_bind, hget]
  dsimp only
  rw [hfile]
  dsimp only
  rw [runAgainst_bind, runAgainst_attempt]
  dsimp only
  rw [runAgainst_bind, runAgainst_orFail, hstat, Vocabulary.readFile]
  cases hs : d.stat file with
  | error e => rfl
  | ok stat =>
    dsimp only [Except.mapError]
    cases w.cached.filter (·.modified = stat.modified) with
    | some cached => rfl
    | none =>
      dsimp only
      rw [runAgainst_bind, runAgainst_onDisk]
      cases (Disk.readText file).run.against d with
      | error e => rfl
      | ok text =>
        dsimp only [Except.mapError]
        rw [runAgainst_bind, runAgainst_orFail]
        cases hparse : Vocabulary.parse text <;> simp only [bind, Except.bind, hparse] <;> rfl

/-- All that may be asked in the course of a request leaves the disk as it is. -/
def OnlyLooks (x : WorkspaceM α) : Prop :=
  ∀ w, (x.run.run w).Looks

theorem OnlyLooks.bind {x : WorkspaceM α} {f : α → WorkspaceM β} (h : OnlyLooks x)
    (hf : ∀ a, OnlyLooks (f a)) : OnlyLooks (x >>= f) := by
  refine fun w ↦ DiskM.Looks.bind (h w) fun out ↦ ?_
  obtain ⟨answer, w⟩ := out
  cases answer with
  | ok a => exact hf a w
  | error e => trivial

theorem onlyLooks_attempt {x : ExceptT ε DiskM α} (h : Looks x) :
    OnlyLooks (Disk.attempt x : WorkspaceM (Except ε α)) := fun _ ↦
  DiskM.Looks.bind (DiskM.Looks.bind h fun _ ↦ trivial) fun _ ↦ trivial

theorem onlyLooks_orFail (f : ε → Failure) (x : Except ε α) : OnlyLooks (orFail f x) := by
  cases x <;> exact fun _ ↦ trivial

theorem onlyLooks_onProject {x : ProjectM α} (h : Looks x) : OnlyLooks (onProject x) := by
  refine (onlyLooks_attempt h).bind fun outcome ↦ ?_
  cases outcome <;> exact fun _ ↦ trivial

theorem onlyLooks_vocabulary : OnlyLooks vocabulary := by
  refine OnlyLooks.bind (x := get) (fun _ ↦ trivial) fun w ↦ ?_
  split
  · exact fun _ ↦ trivial
  · next file _ =>
    refine (onlyLooks_attempt (looks_stat file)).bind fun outcome ↦
      (onlyLooks_orFail _ outcome).bind fun stat ↦ ?_
    split
    · exact fun _ ↦ trivial
    · refine (onlyLooks_onProject (looks_readText file).onDisk).bind fun text ↦
        (onlyLooks_orFail _ _).bind fun v ↦ fun _ ↦ trivial

/-- On a tree of files a request for the vocabulary comes to what it comes to on a disk in the state
of the tree. -/
theorem runOn_vocabulary (w : Workspace) (t : FileTree) : runOn vocabulary w t =
    ⟨(runAgainst vocabulary w t.state).1, (runAgainst vocabulary w t.state).2, t⟩ := by
  rw [runOn, (onlyLooks_vocabulary w).run_eq t]
  rfl

/-- A request for the vocabulary that fails leaves the workspace as it was. -/
theorem vocabulary_of_error {w : Workspace} {d : DiskState} {e : Failure}
    (h : (runAgainst vocabulary w d).1 = .error e) : (runAgainst vocabulary w d).2 = w := by
  cases hfile : w.settings.vocabularyFile with
  | none =>
    have hempty : runAgainst vocabulary w d = (.ok .empty, w) := by
      have hget : runAgainst (get : WorkspaceM Workspace) w d = (.ok w, w) := rfl
      rw [vocabulary, runAgainst_bind, hget]
      dsimp only
      rw [hfile]
      rfl
    rw [hempty]
  | some file =>
    rw [runAgainst_vocabulary hfile] at h ⊢
    split
    · rfl
    · split
      · rfl
      · rfl
      · next hstat _ _ _ hcached hread =>
        simp only [hstat, hcached, hread] at h
        cases h

/-! ## What is remembered

Two cases come up at a request. Either the time is another one, and the file is read, or it is the
same, and then the text in the file is the one that was read before. -/

/-- What a workspace remembers was in the file in one of these states, which had the modification
time that is remembered with it. -/
def Remembers (w : Workspace) (file : Path) (ds : List DiskState) : Prop :=
  ∀ c, w.cached = some c → ∃ d ∈ ds, ∃ stat, d.stat file = .ok stat ∧
    stat.modified = c.modified ∧ c.vocabulary.IsIn file d

theorem Remembers.next {w : Workspace} {file : Path} {ds : List DiskState}
    (hfile : w.settings.vocabularyFile = some file) (h : w.Remembers file ds) {d : DiskState}
    (hd : d ∈ ds) : (runAgainst vocabulary w d).2.Remembers file ds := by
  rw [runAgainst_vocabulary hfile]
  split
  · exact h
  · next stat hstat =>
    split
    · exact h
    · exact h
    · next v _ hread =>
      rintro c ⟨⟩
      exact ⟨d, hd, stat, hstat, rfl, Vocabulary.readFile_eq_ok.1 hread⟩

theorem settings_vocabulary {w : Workspace} {file : Path}
    (hfile : w.settings.vocabularyFile = some file) (d : DiskState) :
    (runAgainst vocabulary w d).2.settings = w.settings := by
  rw [runAgainst_vocabulary hfile]
  split
  · rfl
  · split <;> rfl

/-- A request for the vocabulary is answered by what is in the file now. -/
theorem Remembers.answer_eq {w : Workspace} {file : Path} {ds : List DiskState}
    (hfile : w.settings.vocabularyFile = some file) (h : w.Remembers file ds) {d : DiskState}
    (happart : ∀ d' ∈ ds, file.TellsApart d' d) :
    (runAgainst vocabulary w d).1 = Vocabulary.readFile file d := by
  rw [runAgainst_vocabulary hfile]
  split
  · next e hstat =>
    rw [Vocabulary.readFile, hstat]
    rfl
  · next stat hstat =>
    split
    · next cached hcached =>
      obtain ⟨hsome, htime⟩ := Option.filter_eq_some_iff.1 hcached
      obtain ⟨d', hd', stat', hstat', htime', hin⟩ := h cached hsome
      exact (Vocabulary.readFile_eq_ok.2 (hin.of_tellsApart (happart d' hd') hstat' hstat
        (htime'.trans (of_decide_eq_true htime)))).symm
    · next hread => exact hread.symm
    · next hread => exact hread.symm

/-! ## Histories -/

/-- The answers to requests for the vocabulary, one after another. Between them the disk changes in
any way; for each request its state at that moment is given. -/
def answers (w : Workspace) : List DiskState → List (Except Failure Vocabulary)
  | [] => []
  | d :: ds => (runAgainst vocabulary w d).1 :: answers (runAgainst vocabulary w d).2 ds

/-- Every request of a history is answered by what is in the file at that moment. -/
theorem answers_eq_map {file : Path} {all : List DiskState}
    (happart : ∀ d ∈ all, ∀ d' ∈ all, file.TellsApart d d') {ds : List DiskState} (hds : ds ⊆ all)
    {w : Workspace} (hfile : w.settings.vocabularyFile = some file) (h : w.Remembers file all) :
    w.answers ds = ds.map (Vocabulary.readFile file) := by
  induction ds generalizing w with
  | nil => rfl
  | cons d ds ih =>
    have hd : d ∈ all := hds List.mem_cons_self
    rw [answers, List.map_cons, h.answer_eq hfile fun d' hd' ↦ happart d' hd' d hd,
      ih (fun _ hmem ↦ hds (List.mem_cons_of_mem _ hmem))
        ((settings_vocabulary hfile d).symm ▸ hfile)
        (h.next hfile hd)]

/-- A request that fails might as well not have been made. -/
theorem answers_eraseIdx {w : Workspace} {ds : List DiskState} {i : Nat} {e : Failure}
    (h : (w.answers ds)[i]? = some (.error e)) :
    w.answers (ds.eraseIdx i) = (w.answers ds).eraseIdx i := by
  induction ds generalizing w i with
  | nil => rfl
  | cons d ds ih =>
    cases i with
    | zero =>
      rw [answers, List.getElem?_cons_zero, Option.some.injEq] at h
      rw [List.eraseIdx_cons_zero, answers, List.eraseIdx_cons_zero, vocabulary_of_error h]
    | succ i =>
      rw [answers, List.getElem?_cons_succ] at h
      rw [List.eraseIdx_cons_succ, answers, answers, List.eraseIdx_cons_succ, ih h]

/-- Requests for the vocabulary of a workspace with a vocabulary file, whose states the modification
time tells apart: a request has an answer exactly when the file exists at that moment, can be read
and reads as a vocabulary, and the answer is that vocabulary; and a request that fails changes
nothing for those behind it. -/
theorem vocabulary_never_stale {settings : Settings} {file : Path} {ds : List DiskState}
    (hfile : settings.vocabularyFile = some file)
    (happart : ∀ d ∈ ds, ∀ d' ∈ ds, file.TellsApart d d') :
    (∀ (i : Nat) d, ds[i]? = some d → ∀ v : Vocabulary,
      ((new settings).answers ds)[i]? = some (Except.ok v) ↔ v.IsIn file d)
    ∧ ∀ i e, ((new settings).answers ds)[i]? = some (.error e) →
      (new settings).answers (ds.eraseIdx i) = ((new settings).answers ds).eraseIdx i := by
  have hnew : (new settings).Remembers file ds := fun _ hc ↦ nomatch hc
  refine ⟨fun i d hd v ↦ ?_, fun i e he ↦ answers_eraseIdx he⟩
  rw [answers_eq_map happart (List.Subset.refl ds) hfile hnew, List.getElem?_map, hd,
    Option.map_some, Option.some.injEq, Vocabulary.readFile_eq_ok]

/-- A vocabulary file that is saved, broken, deleted, and put back as it was first. -/
private def restored : List DiskState :=
  [saved 1 "cmd Wait: 0x01 frames", saved 2 "cmd Wait 0x01", FileTree.state {},
    saved 1 "cmd Wait: 0x01 frames"]
where
  saved (modified : Int) (text : String) : DiskState :=
    FileTree.state { entries := [(["names"], .file text.toUTF8 modified)] }

theorem vocabulary_never_stale_restored :
    let w := new { vocabularyFile := some ⟨"/names"⟩ }
    ∃ v, (w.answers restored)[3]? = some (Except.ok v) ∧ v.commands.names = ["Wait"]
      ∧ w.answers (restored.eraseIdx 1) = (w.answers restored).eraseIdx 1 := by
  intro w
  obtain ⟨hok, herror⟩ := @vocabulary_never_stale { vocabularyFile := some ⟨"/names"⟩ } ⟨"/names"⟩
    restored rfl (by decide +kernel)
  have hnames : (Vocabulary.parse "cmd Wait: 0x01 frames").toOption.map (·.commands.names)
      = some ["Wait"] := by decide +kernel
  obtain ⟨v, hv, hnames⟩ := Option.map_eq_some_iff.1 hnames
  have hin : v.IsIn ⟨"/names"⟩ (restored.saved 1 "cmd Wait: 0x01 frames") :=
    ⟨⟨.file, 1⟩, "cmd Wait: 0x01 frames".toUTF8, "cmd Wait: 0x01 frames",
      Running.toOption_eq_some.1 (by decide +kernel),
        Running.toOption_eq_some.1 (by decide +kernel),
      by decide +kernel, Running.toOption_eq_some.1 hv⟩
  have hbroken : ((w.answers restored)[1]?.map (·.toOption.isNone)) = some true := by decide +kernel
  obtain ⟨answer, hanswer, hnone⟩ := Option.map_eq_some_iff.1 hbroken
  refine ⟨v, (hok 3 _ rfl v).2 hin, hnames, ?_⟩
  cases answer with
  | ok v => cases hnone
  | error e => exact herror 1 e hanswer

end Workspace

end CharacterScript
