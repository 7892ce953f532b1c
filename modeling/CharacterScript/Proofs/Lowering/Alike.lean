import CharacterScript.Layer.Lower
import CharacterScript.Proofs.Interface.Agreement
import CharacterScript.Proofs.Interface.Declaring

/-!
# Steps of lowering from works that are alike

Lowering is compared in several ways: in two programs that a layer cannot tell apart, at other
places of a text, with other definitions. Each time there is a relation between works, and it is
shown that what is lowered from alike works comes out alike. This module has what all of them need
of the single steps.

## Two demands on the relation

`Work.Parallel` is about the scope being filled. Works that are alike have the same pools of numbers
and texts, and stay alike when the same is put into both scopes. So the steps that put something
there agree.

`Env.SameMeaning` is about names. At two places, from works that are alike, the same names are
variables, in the same order; a script has the same id; and a call calls the same. So a name that is
not a definition is lowered to the same, and so is a variable that is assigned to or declared.

## Definitions are left out

What a name or the text of a calculation stands for when definitions are put in is not settled here.
It is where the comparisons differ: the definitions may be the same ones, or moved, or worded
otherwise, or one of them may be gone.
-/

namespace CharacterScript

open Running

/-! ## The scope being filled

Code and pools only ever get longer while a scope is filled, so one operation covers all the
steps. -/

/-- A work with code and pools of the scope being filled made longer. -/
def Work.push (w : Work) (is : List Instruction) (numbers : List Float32) (strings : List String) :
    Work :=
  { w with scope := { w.scope with
      instructions := w.scope.instructions ++ is.toArray
      numbers := w.scope.numbers ++ numbers.toArray
      strings := w.scope.strings ++ strings.toArray } }

/-- A relation that holds of works only if they have the same pools, and that is kept when code and
pools of the scopes being filled are changed in the same way. -/
structure Work.Parallel (R : Work → Work → Prop) : Prop where
  /-- A number is found at the same place in both pools. -/
  numbers : ∀ {w w'}, R w w' → w.scope.numbers = w'.scope.numbers
  /-- A string is found at the same place in both pools. -/
  strings : ∀ {w w'}, R w w' → w.scope.strings = w'.scope.strings
  /-- The works may go on in step. -/
  push : ∀ {w w'} (is : List Instruction) (numbers : List Float32) (strings : List String), R w w' →
    R (w.push is numbers strings) (w'.push is numbers strings)

variable {R : Work → Work → Prop}

namespace Lowering

theorem matches_fit (n : Nat) (what : Limit) (pos pos' : Unit → Position) :
    Matches R Eq (fit n what pos) (fit n what pos') := by
  rw [fit, fit]
  cases word? n with
  | some w => exact .pure w
  | none => exact .throw rfl

variable (hR : Work.Parallel R)

include hR

theorem matches_emit (i : Instruction) : Matches R Eq (emit i) (emit i) :=
  .modify fun _ _ h ↦ by simpa [Work.push] using hR.push [i] [] [] h

theorem matches_pushNumber (value : Float) (pos pos' : Unit → Position) :
    Matches R Eq (pushNumber value pos) (pushNumber value pos') := by
  refine .bind (.modify fun _ _ h ↦ ?_) fun _ ↦ .get_bind fun w w' h ↦ ?_
  · simpa [Work.push] using hR.push [] [narrow value] [] h
  · rw [hR.numbers h]
    exact .bind (matches_fit _ _ _ _) fun _ ↦ .pure _

theorem matches_pushString (value : String) (pos pos' : Unit → Position) :
    Matches R Eq (pushString value pos) (pushString value pos') := by
  refine .bind (.modify fun _ _ h ↦ ?_) fun _ ↦ .get_bind fun w w' h ↦ ?_
  · simpa [Work.push] using hR.push [] [] [value] h
  · rw [hR.strings h]
    exact .bind (matches_fit _ _ _ _) fun _ ↦ .pure _

end Lowering

theorem matches_calculated (text : String) (pos pos' : Unit → Position) :
    Matches R Eq (calculated text pos) (calculated text pos') := by
  rw [calculated, calculated]
  cases evaluate text with
  | ok value => exact .pure value
  | error e => exact .throw rfl

theorem matches_checkArgs {site site' : Site} (callee : Env.Callee) (name : String)
    (nameSpan nameSpan' : Span) (args args' : List Arg) (operands : List Operand) :
    Matches R Eq (checkArgs site callee name nameSpan args operands)
      (checkArgs site' callee name nameSpan' args' operands) := by
  rw [checkArgs, checkArgs]
  refine .ite Iff.rfl (.ite Iff.rfl (.bind (.throw rfl) fun _ ↦ ?_) ?_)
    (.ite Iff.rfl (.bind (.throw rfl) fun _ ↦ ?_) ?_)
  -- after the number of arguments, on whichever way, come the references
  all_goals
    split
    · exact .pure _
    · exact .throw rfl

/-! ## Questions with the same answers

Variables are found by name only, and of a callable a call takes no more than its id and how many
parameters and references there are. -/

section

variable {env env' : Env} {w w' : Work}

theorem Env.slot?_congr (hvars : (env.vars w).map (·.name) = (env'.vars w').map (·.name))
    (name : String) : env.slot? name w = env'.slot? name w' := by
  have hslot : ∀ vars : List Identifier, vars.findIdx? (·.name == name)
      = (vars.map (·.name)).findIdx? (· == name) := by
    intro vars
    rw [List.findIdx?_map]
    rfl
  rw [slot?, slot?, hslot, hslot, hvars]

theorem Env.isSome_taken?_congr (hvars : (env.vars w).map (·.name) = (env'.vars w').map (·.name))
    {name : String} {offset offset' : Nat}
    (hdefine : (env.define? name offset w).isSome = (env'.define? name offset' w').isSome)
    (htaken : w.program.SameTaken w'.program) :
    (env.taken? name offset w).isSome = (env'.taken? name offset' w').isSome := by
  have hfind : ∀ vars : List Identifier, (vars.find? (·.name == name)).isSome
      = (vars.map (·.name)).any (· == name) := by
    intro vars
    rw [List.isSome_find?, List.any_map]
    rfl
  simp only [taken?, Option.isSome_or, Option.isSome_map, hfind, hvars, hdefine,
    htaken.declared?_isSome]

/-- Callables that a call is checked against in the same way. -/
structure Callable.CalledAlike (c c' : Callable) : Prop where
  /-- A call needs as many arguments. -/
  params : c.params.length = c'.params.length
  /-- As many of them have to be variables. -/
  refCount : c.refCount = c'.refCount

/-- Programs in which a call calls the same. -/
structure Program.CallAlike (p q : Program) : Prop where
  /-- The same names are taken, so the ids are the same. -/
  names : p.SameTaken q
  /-- The calls of a script are checked alike. -/
  scripts : ∀ name, Option.Rel Callable.CalledAlike (p.scripts.get? name) (q.scripts.get? name)
  /-- The calls of a function are checked alike. -/
  functions : ∀ name, Option.Rel Callable.CalledAlike (p.functions.get? name)
    (q.functions.get? name)
  /-- So are those of the script a program starts with. -/
  main : Option.Rel Callable.CalledAlike p.main q.main

theorem Program.SameTaken.scriptId? {p q : Program} (h : p.SameTaken q) (name : String) :
    p.scriptId? name = q.scriptId? name :=
  congrArg (Option.map (· + 1)) (Table.indexOf?_of_names h.scripts name)

theorem Env.callee?_congr (hvocabulary : env.layer.vocabulary = env'.layer.vocabulary)
    (h : w.program.CallAlike w'.program) (name : String) :
    env.callee? name w = env'.callee? name w' := by
  have hmain : Option.Rel Callable.CalledAlike (if name == mainName then w.program.main else none)
      (if name == mainName then w'.program.main else none) := by
    split
    · exact h.main
    · exact .none
  rw [callee?, callee?, Program.scriptId?, Program.scriptId?,
    Table.indexOf?_of_names h.names.scripts, Table.indexOf?_of_names h.names.functions, hvocabulary]
  obtain ⟨hs, hs'⟩ | ⟨c, c', hs, hs', hc⟩ := both_of_rel (h.scripts name)
  · rw [Table.get?_eq_none_iff.1 hs']
    obtain ⟨hf, hf'⟩ | ⟨c, c', hf, hf', hc⟩ := both_of_rel (h.functions name)
    · rw [Table.get?_eq_none_iff.1 hf']
      dsimp only [Option.map_none]
      split
      · rfl
      · obtain ⟨hm, hm'⟩ | ⟨c, c', hm, hm', hc⟩ := both_of_rel hmain
        · rw [hm, hm']
        · rw [hm, hm']
          simp [hc.params, hc.refCount]
    · obtain ⟨i, hi, -⟩ := Table.indexOf?_of_get? hf'
      rw [hi, hf, hf']
      simp [hc.params, hc.refCount]
  · obtain ⟨i, hi, -⟩ := Table.indexOf?_of_get? hs'
    rw [hi, hs, hs']
    simp [hc.params, hc.refCount]

end

/-! ## Names

What a plain name means is a choice of three, and the steps that make it are the same in both
runs. -/

/-- At the two places, from works that are alike, a name that is not a definition means the same. -/
structure Env.SameMeaning (R : Work → Work → Prop) (env env' : Env) : Prop where
  /-- The runtime provides the same. -/
  vocabulary : env.layer.vocabulary = env'.layer.vocabulary
  /-- The variables in sight have the same names in the same order. -/
  vars : ∀ {w w'}, R w w' → (env.vars w).map (·.name) = (env'.vars w').map (·.name)
  /-- A script has the same id. -/
  scriptId? : ∀ {w w'}, R w w' → ∀ name, w.program.scriptId? name = w'.program.scriptId? name
  /-- A call has the same callee. -/
  callee? : ∀ {w w'}, R w w' → ∀ name, env.callee? name w = env'.callee? name w'

namespace Env.SameMeaning

variable {env env' : Env} (h : Env.SameMeaning R env env')

include h

theorem matches_plainName (name : String) (fromTarget : Bool) (pos pos' : Unit → Position) :
    Matches R Eq (env.plainName name fromTarget pos) (env'.plainName name fromTarget pos') := by
  refine .get_bind fun w w' hw ↦ ?_
  rw [Env.slot?_congr (h.vars hw), h.scriptId? hw, h.vocabulary]
  split
  · exact .bind (Lowering.matches_fit _ _ _ _) fun _ ↦ .pure _
  · split
    · exact .bind (Lowering.matches_fit _ _ _ _) fun _ ↦ .pure _
    · split
      · exact .pure _
      · exact .throw rfl

theorem matches_assignedSlot (name : String) (span span' : Span) :
    Matches R Eq (assignedSlot env name span) (assignedSlot env' name span') := by
  refine .get_bind fun w w' hw ↦ ?_
  rw [Env.slot?_congr (h.vars hw)]
  split
  · exact Lowering.matches_fit _ _ _ _
  · exact .throw rfl

/-- A variable is declared alike if it is taken on both sides or on none, and the relation is kept
when it is added to both scopes. -/
theorem matches_lowerLet (hR : Work.Parallel R) {name : String} {span span' : Span}
    (htaken : ∀ {w w'}, R w w' →
      (env.taken? name span.start w).isSome = (env'.taken? name span'.start w').isSome)
    (hdeclare : Matches R Eq (Lowering.declareVar ⟨.var, name, env.layer.pos span⟩)
      (Lowering.declareVar ⟨.var, name, env'.layer.pos span'⟩)) (value : Operand) :
    Matches R Eq (lowerLet env name span value) (lowerLet env' name span' value) := by
  rw [lowerLet, lowerLet, h.vocabulary]
  refine .get_bind fun w w' hw ↦ ?_
  obtain ⟨hnone, hnone'⟩ | ⟨other, other', hsome, hsome'⟩ := Layer.both_of_isSome (htaken hw)
  · rw [hnone, hnone']
    refine .ite Iff.rfl (.bind (.throw rfl) fun _ ↦ ?_) ?_
    -- what comes after the two checks
    all_goals
      refine .get_bind fun w w' hw ↦ ?_
      have hlength : (env.vars w).length = (env'.vars w').length := by
        simpa using congrArg List.length (h.vars hw)
      rw [hlength]
      exact .bind hdeclare fun _ ↦ .bind (Lowering.matches_fit _ _ _ _) fun _ ↦
        .bind (Lowering.matches_emit hR _) fun _ ↦ Lowering.matches_emit hR _
  · rw [hsome, hsome']
    exact .throw rfl

end Env.SameMeaning

end CharacterScript
