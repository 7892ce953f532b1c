import CharacterScript.Proofs.TopLevel
import CharacterScript.Proofs.Relocation.Lowering

/-!
# The id of a script

A script is named in two ways: a call has its name, and so has an expression that is its id. The two
are looked up apart from each other. A call finds the script in the table, or, behind functions and
commands, `main`, which is in no table and has id zero. An expression that is only a name finds a
definition or a variable first, then the table, and never `main`.

## Agreement

So the two agree on every script but `main` (`script_id_of_call`). For `main` there is no id to be
had: asked for by its name it has none, and as an expression the name is unknown.

## Bare names

An expression that is only a name is lowered in one of two ways, as it was written or inside a
definition. `Site.Bare` covers both, so the statement is one for all places. What it excludes is a
name that stands for something else there: a variable or a definition.
-/

namespace CharacterScript

open Running

/-- A place where no definition is in front of a name: none in sight has the name, or it is inside
of one already. -/
def Site.Bare (site : Site) (env : Env) (name : String) (offset : Nat) (w : Work) : Prop :=
  (site = .written env ∧ env.define? name offset w = none) ∨ ∃ pos, site = .inside env pos

variable {env : Env} {site : Site} {name : String} {w : Work}

/-! ## What a call finds

Functions come before commands and `main` behind both, so a call that finds a script has found
neither of the others. -/

/-- The script that a call calls is in the table at the place that its id names, or it is `main`. -/
theorem Env.callee?_script {callee : Env.Callee} (h : env.callee? name w = some callee)
    (htarget : callee.target = .script) :
    w.program.scriptId? name = some callee.id ∨
      name = mainName ∧ callee.id = 0 ∧ w.program.main.isSome := by
  rw [Env.callee?] at h
  split at h
  next id c hid hc =>
    cases h
    exact .inl hid
  next =>
    split at h
    next =>
      cases h
      cases htarget
    next =>
      split at h
      next =>
        cases h
        cases htarget
      next =>
        split at h
        next c hc =>
          cases h
          split at hc
          next hname => exact .inr ⟨beq_iff_eq.1 hname, rfl, Option.isSome_of_eq_some hc⟩
          next => cases hc
        next => cases h

/-- A call is of what its name was found to be. -/
theorem Call.callee_of_lower {c : Call} {target : CallTarget} {id : UInt16}
    {os : List Operand} {w' : Work}
    (h : c.lower env site w = .ok (target, id, os) w') :
    ∃ callee, env.callee? c.name w = some callee ∧ callee.target = target ∧
      callee.id = id.toNat := by
  cases c with
  | mk name nameSpan collapse args span =>
    rw [Call.lower, get_bind] at h
    cases hcallee : env.callee? name w with
    | none =>
      simp only [hcallee] at h
      exact absurd h throw_ne_ok
    | some callee =>
      simp only [hcallee] at h
      obtain ⟨id', _, hfit, h₁⟩ := bind_eq_ok.1 h
      obtain ⟨hid, -⟩ := Lowering.fit_eq_ok.1 hfit
      obtain ⟨os', _, -, h₂⟩ := bind_eq_ok.1 h₁
      obtain ⟨⟨⟩, _, -, h₃⟩ := bind_eq_ok.1 h₂
      obtain ⟨heq, -⟩ := pure_eq_ok.1 h₃
      cases heq
      exact ⟨callee, hcallee, rfl, hid.symm⟩

/-! ## What a name finds

Variables are looked up before scripts, and no variable has the name of a script, because names in
sight are told apart. -/

theorem Site.Bare.lower_eq {fromTarget : Bool} {span : Span} (h : site.Bare env name span.start w) :
    (Expr.name name fromTarget span).lower env site w
      = env.plainName name fromTarget (fun _ ↦ site.pos span) w := by
  rw [Expr.lower]
  obtain ⟨rfl, hdefine⟩ | ⟨pos, rfl⟩ := h
  · exact Site.name_written_of_none hdefine
  · rfl

/-- Where no variable has the name of a script, the name is its id. -/
theorem Env.plainName_of_script {id : UInt16} {fromTarget : Bool} {pos : Unit → Position}
    (hslot : env.slot? name w = none) (h : w.program.scriptId? name = some id.toNat) :
    env.plainName name fromTarget pos w = .ok (.raw id) w := by
  rw [Env.plainName, get_bind]
  simp only [hslot, h]
  exact (bind_of_ok (Lowering.fit_eq_ok.2 ⟨rfl, rfl⟩)).trans rfl

/-- A name that is lowered to a plain word is that of a script, and the word is its id. -/
theorem Env.scriptId?_of_plainName {id : UInt16} {fromTarget : Bool}
    {pos : Unit → Position} {w' : Work}
    (h : env.plainName name fromTarget pos w = .ok (.raw id) w') :
    w.program.scriptId? name = some id.toNat := by
  rw [Env.plainName, get_bind] at h
  cases hslot : env.slot? name w with
  | some slot =>
    simp only [hslot] at h
    obtain ⟨_, _, -, heq⟩ := bind_eq_ok.1 h
    cases (pure_eq_ok.1 heq).1
  | none =>
    simp only [hslot] at h
    cases hscript : w.program.scriptId? name with
    | some k =>
      simp only [hscript] at h
      obtain ⟨_, _, hfit, heq⟩ := bind_eq_ok.1 h
      cases (pure_eq_ok.1 heq).1
      rw [(Lowering.fit_eq_ok.1 hfit).1]
    | none =>
      simp only [hscript] at h
      cases hglobal : env.layer.vocabulary.global? name with
      | some g =>
        simp only [hglobal] at h
        cases (pure_eq_ok.1 h).1
      | none =>
        simp only [hglobal] at h
        exact absurd h throw_ne_ok

/-- A name that nothing has is unknown. -/
theorem Env.plainName_of_none {fromTarget : Bool} {pos : Unit → Position}
    (hslot : env.slot? name w = none) (hscript : w.program.scriptId? name = none)
    (hglobal : env.layer.vocabulary.global? name = none) :
    env.plainName name fromTarget pos w = .error (.unknownName (pos ()) name) w := by
  rw [Env.plainName, get_bind]
  simp only [hslot, hscript, hglobal]
  rfl

/-! ## Both -/

theorem Program.Sound.scriptId?_main {p : Program} (h : p.Sound) : p.scriptId? mainName = none := by
  rw [Program.scriptId?, Table.get?_eq_none_iff.1 h.main_not_script, Option.map_none]

/-- A program that has `main` is run without a global of that name. -/
theorem Session.Reachable.main_not_global {s : Session} (hs : s.Reachable)
    (h : s.program.main.isSome) :
    s.vocabulary.global? mainName = none := by
  obtain ⟨c, hc⟩ := Option.isSome_iff_exists.1 h
  have hmain : s.program.callable? .main = some c := hc
  have hname : c.ident.name = mainName := hs.named.callables hmain
  have hnames : mainName ∈ s.program.namesOf .script := by
    rw [Program.namesOf, hc, ← hname]
    exact List.mem_append_right _ List.mem_cons_self
  exact (hs.namesApart.not_reserved hnames).2

/-- In every program a session reaches, a call of a script other than `main` has the id that is
given for its name, and that the name alone stands for wherever no definition and no variable has
it. A call of `main` has id zero, but no id is given for that name, and alone it is unknown. -/
theorem script_id_of_call {s : Session} (hs : s.Reachable) {c : Call} {id : UInt16}
    {os : List Operand}
    {w' : Work} (hw : s.program.SameNames w.program)
    (h : c.lower env site w = .ok (.script, id, os) w') :
    (c.name ≠ mainName → s.program.scriptId? c.name = some id.toNat ∧
      ∀ {env' : Env} {site' : Site} {v : Work} (fromTarget : Bool) (span : Span),
        s.program.SameNames v.program → site'.Bare env' c.name span.start v →
        env'.slot? c.name v = none →
        (Expr.name c.name fromTarget span).lower env' site' v = .ok (.raw id) v) ∧
    (c.name = mainName → id = 0 ∧ s.program.scriptId? c.name = none ∧
      ∀ {env' : Env} {site' : Site} {v : Work} (fromTarget : Bool) (span : Span),
        s.program.SameNames v.program → site'.Bare env' c.name span.start v →
        env'.slot? c.name v = none → env'.layer.vocabulary = s.vocabulary →
        (Expr.name c.name fromTarget span).lower env' site' v
          = .error (.unknownName (site'.pos span) c.name) v) := by
  obtain ⟨callee, hcallee, htarget, hid⟩ := Call.callee_of_lower h
  have hfound := Env.callee?_script hcallee htarget
  rw [hw.scriptId?, hid] at hfound
  constructor
  · intro hname
    have hscript := hfound.resolve_right fun hmain ↦ hname hmain.1
    refine ⟨hscript, fun fromTarget span hv hsite hslot ↦ ?_⟩
    rw [hsite.lower_eq]
    exact Env.plainName_of_script hslot ((hv.scriptId? c.name).trans hscript)
  · intro hname
    have hnone : s.program.scriptId? c.name = none := hname ▸ hs.sound.scriptId?_main
    obtain ⟨-, hzero, hmain⟩ := hfound.resolve_left (by rw [hnone]; exact nofun)
    obtain ⟨main, hprogram⟩ := Option.isSome_iff_exists.1 hmain
    obtain ⟨_, hsession, -⟩ := hw.symm.main_some hprogram
    have hglobal := hs.main_not_global (Option.isSome_of_eq_some hsession)
    refine ⟨UInt16.toNat_inj.1 hzero, hnone, fun fromTarget span hv hsite hslot hvocabulary ↦ ?_⟩
    rw [hsite.lower_eq]
    refine Env.plainName_of_none hslot ((hv.scriptId? c.name).trans hnone) ?_
    rw [hvocabulary, hname, hglobal]

namespace Sample

/-- Two scripts that call each other. -/
def twoScripts : String :=
  "script other() \x7b main() \x7d
script main() \x7b other() \x7d"

/-- A place in the body of `main`, and work that starts there. -/
def mainBody : Env :=
  ⟨⟨vocabulary, .ofSource "", 1, none⟩, .main, [], [], 0, 1⟩

def startWork (p : Program) : Work :=
  ⟨p, { depth := 1, level := 1, owner := .main, parent := none }⟩

/-- What a call without arguments calls there, in the program of the two scripts. -/
def callTarget (name : String) : Option (CallTarget × UInt16) :=
  (((Call.mk name ⟨0, 0⟩ false [] ⟨0, 0⟩).lower mainBody (.written mainBody)).run'
    (startWork (start.compileLayer twoScripts).2.program)).map fun call ↦ (call.1, call.2.1)

/-- What the two scripts are found under. -/
theorem twoScripts_found : (start.compileLayer twoScripts).1.toOption = some 1 ∧
    callTarget "other" = some (.script, 1) ∧ callTarget "main" = some (.script, 0) ∧
    mainBody.slot? "other" (startWork (start.compileLayer twoScripts).2.program) = none ∧
    (start.compileLayer twoScripts).2.program.scriptId? "other" = some 1 ∧
    (start.compileLayer twoScripts).2.program.scriptId? "main" ≠ some 0 := by
  decide +kernel

theorem exists_call (name : String) (target : CallTarget) (id : UInt16)
    (h : callTarget name = some (target, id)) :
    ∃ s os w, start.compileLayer twoScripts = (.ok 1, s) ∧
      (Call.mk name ⟨0, 0⟩ false [] ⟨0, 0⟩).lower mainBody (.written mainBody) (startWork s.program)
        = .ok (target, id, os) w := by
  rw [callTarget, Option.map_eq_some_iff] at h
  obtain ⟨⟨target', id', os⟩, hrun, heq⟩ := h
  cases heq
  exact ⟨(start.compileLayer twoScripts).2, os, _, accepted_of_fst twoScripts_found.1,
    eq_ok_of_run' hrun⟩

end Sample

/-- A script that is called, and its name alone. -/
theorem script_id_of_call_sample :
    ∃ s, Sample.start.compileLayer Sample.twoScripts = (.ok 1, s) ∧
      s.program.scriptId? "other" = some 1 ∧
      (Expr.name "other" false ⟨0, 0⟩).lower Sample.mainBody (.inside Sample.mainBody default)
        (Sample.startWork s.program) = .ok (.raw 1) (Sample.startWork s.program) := by
  obtain ⟨-, htarget, -, hslot, -⟩ := Sample.twoScripts_found
  obtain ⟨s, os, w, hs, hcall⟩ := Sample.exists_call "other" .script 1 htarget
  have hreachable := Sample.reachable_start.layer Sample.twoScripts
  rw [hs] at hreachable hslot
  obtain ⟨hid, hbare⟩ := (script_id_of_call hreachable .refl hcall).1 (by decide)
  exact ⟨s, hs, hid, hbare false ⟨0, 0⟩ .refl (.inr ⟨default, rfl⟩) hslot⟩

/-- A call of `main` is a call of the script with id zero, but its name has no id. -/
theorem main_without_id :
    ∃ s os w, Sample.start.compileLayer Sample.twoScripts = (.ok 1, s) ∧
      (Call.mk "main" ⟨0, 0⟩ false [] ⟨0, 0⟩).lower Sample.mainBody (.written Sample.mainBody)
        (Sample.startWork s.program) = .ok (.script, 0, os) w ∧
      s.program.scriptId? "main" ≠ some 0 := by
  obtain ⟨-, -, htarget, -, -, hnone⟩ := Sample.twoScripts_found
  obtain ⟨s, os, w, hs, hcall⟩ := Sample.exists_call "main" .script 0 htarget
  rw [hs] at hnone
  exact ⟨s, os, w, hs, hcall, hnone⟩

end CharacterScript
