import CharacterScript.Proofs.Lowering.SideBySide
import CharacterScript.Proofs.Redefining.Calculating
import CharacterScript.Proofs.Relocation.Definitions

/-!
# Lowering a body when a definition has been overtaken

A table has one entry for a name, with one place. So a definition behind all code that is given a
name anew has no effect on what that code sees under other names, but what the name stood for before
is gone: the new definition is seen from behind it only, and the old one is not in the table any
more (`Overtaken`).

## Two runs

Code is lowered twice, with the table as it was and with the overtaken one. If the name was new, the
two runs do the same. If it was not, they do the same until the name is looked up, in an expression
or in the text of a calculation; the first run then finds a definition and the second nothing, and
fails. What a tree looks up is `Block.lookups`, and `FollowsUnless` the relation between the two
runs.

## An instance of a comparison

That the second run follows the first until something is looked up is a way to compare two runs,
`Comparison.following`, whose outcome depends on the names that code looks up. The recursion over
the code is that of `StmtsMove.holds`. What is added here is that lookups of other names come out
the same in both tables, and that a lookup of the name fails in the second.
-/

namespace CharacterScript

open Running

/-! ## Runs that do the same until something is used

The relation is put together along sequences: what the second step uses counts only if the first
one has not failed already. -/

namespace Running

variable {σ α β : Type}

/-- When the first result is a success, the second is the same, in a state that is alike; but if
what is gone was used, the second is a failure. -/
def Follows (used : Prop) (R : σ → σ → Prop) (r r' : EStateM.Result Problem σ α) : Prop :=
  ∀ a s, r = .ok a s →
    (used → ∃ e t, r' = .error e t) ∧ (¬used → ∃ t, r' = .ok a t ∧ R s t)

/-- From states that are alike, the second step follows the first, unless it uses what is gone. -/
def FollowsUnless (used : Prop) (R : σ → σ → Prop) (x y : EStateM Problem σ α) : Prop :=
  ∀ s t, R s t → Follows used R (x s) (y t)

namespace Follows

variable {R : σ → σ → Prop} {used used' : Prop} {r r' : EStateM.Result Problem σ α}

/-- Steps that agree use nothing that is gone. -/
theorem of_agree (hunused : ¬used) (h : Agree R Eq r r') : Follows used R r r' := by
  intro a s hr
  obtain ⟨_, t, hr', rfl, hst⟩ := h.ok_of_ok hr
  exact ⟨fun hused ↦ absurd hused hunused, fun _ ↦ ⟨t, hr', hst⟩⟩

theorem congr (h : Follows used R r r') (hiff : used ↔ used') : Follows used' R r r' := by
  obtain rfl := propext hiff
  exact h

theorem andThen {f g : α → σ → EStateM.Result Problem σ β} (h : Follows used R r r')
    (hfg : ∀ a s t, r = .ok a s → r' = .ok a t → R s t → Follows used' R (f a s) (g a t)) :
    Follows (used ∨ used') R (Running.andThen r f) (Running.andThen r' g) := by
  cases r with
  | error e s => exact fun _ _ ↦ nofun
  | ok a s =>
    intro b s' hf
    obtain ⟨hfail, hgo⟩ := h a s rfl
    by_cases hused : used
    · obtain ⟨e, t, rfl⟩ := hfail hused
      exact ⟨fun _ ↦ ⟨e, t, rfl⟩, fun hnot ↦ absurd (.inl hused) hnot⟩
    · obtain ⟨t, rfl, hst⟩ := hgo hused
      rw [or_iff_right hused]
      exact hfg a s t rfl rfl hst b s' hf

end Follows

namespace FollowsUnless

variable {R : σ → σ → Prop} {used used' : Prop} {x y : EStateM Problem σ α}
variable {f g : α → EStateM Problem σ β}

theorem of_matches (hunused : ¬used) (h : Matches R Eq x y) : FollowsUnless used R x y :=
  fun s t hst ↦ .of_agree hunused (h s t hst)

/-- A first step that fails has nothing to be followed in. -/
theorem of_throw {p : Problem} : FollowsUnless used R (throw p) y :=
  fun _ _ _ _ _ hthrow ↦ absurd hthrow throw_ne_ok

theorem bind (hxy : FollowsUnless used R x y) (hfg : ∀ a, FollowsUnless used' R (f a) (g a)) :
    FollowsUnless (used ∨ used') R (x >>= f) (y >>= g) := by
  intro s t hst
  rw [bind_eq_andThen, bind_eq_andThen]
  exact (hxy s t hst).andThen fun a s' t' _ _ hst' ↦ hfg a s' t' hst'

theorem after_matches (hxy : Matches R Eq x y) (hfg : ∀ a, FollowsUnless used R (f a) (g a)) :
    FollowsUnless used R (x >>= f) (y >>= g) :=
  fun s t hst ↦ ((of_matches not_false hxy).bind hfg s t hst).congr (by rw [false_or])

/-- One step after the other looks up what the one looks up and then what the other does. -/
theorem bind_append {gone : Prop} {name : String} {first second : List String}
    (hxy : FollowsUnless (gone ∧ name ∈ first) R x y)
    (hfg : ∀ a, FollowsUnless (gone ∧ name ∈ second) R (f a) (g a)) :
    FollowsUnless (gone ∧ name ∈ first ++ second) R (x >>= f) (y >>= g) :=
  fun s t hst ↦ (hxy.bind hfg s t hst).congr (by rw [List.mem_append, and_or_left])

end FollowsUnless

end Running

/-! ## An overtaken definition

Definitions are put into a calculation in the order of the table. Taking one out of the order
leaves the others in theirs. -/

/-- The second table is the first with a definition under `name` that code in front of `reach` does
not see, in place of one that it sees or at the end. -/
structure Overtaken (depth reach : Nat) (name : String) (t u : Table Define) : Prop where
  /-- Names are such as can be written. -/
  isIdentifier : ∀ other ∈ name :: t.names, IsIdentifier other
  /-- A definition has the name it is found under. -/
  ident_name : ∀ {other d}, t.get? other = some d → d.ident.name = other
  /-- Under any other name is the same definition. -/
  same : ∀ other ≠ name, u.get? other = t.get? other
  /-- The others come in the same order. -/
  order : u.names.filter (· ≠ name) = t.names.filter (· ≠ name)
  /-- All code sees the definition that is replaced. -/
  seen : ∀ {d}, t.get? name = some d → ∀ offset, d.visibleFrom depth offset = true
  /-- Code in front of `reach` does not see the one that replaces it. -/
  hidden : ∀ {d}, u.get? name = some d → ∀ offset < reach, d.visibleFrom depth offset = false
  /-- No expansion mentions the name that is replaced. -/
  silent : ∀ {other d e}, t.get? other = some d → d.expansion = some e → t.get? name ≠ none →
    name ∉ wordsOf e.text

theorem Table.values_eq_filterMap {α : Type} (t : Table α) :
    t.values = t.names.filterMap t.get? := by
  have hget : ∀ e ∈ t.toList, (t.get? ∘ (·.1)) e = some e.2 := fun e he ↦ mem_toList_iff_get?.1 he
  rw [values, names, List.filterMap_map, List.filterMap_congr hget, ← List.filterMap_eq_map]
  rfl

/-- A loop passes over a name that changes nothing. -/
private theorem foldl_filter_ne {f : String → String → String} {name : String} {P : String → Prop}
    (hkept : ∀ text other, P text → P (f text other)) (hname : ∀ text, P text → f text name = text)
    (names : List String) {text : String} (htext : P text) :
    names.foldl f text = (names.filter (· ≠ name)).foldl f text := by
  induction names generalizing text with
  | nil => rfl
  | cons other names ih =>
    rw [List.foldl_cons, List.filter_cons]
    split
    next => exact ih (hkept text other htext)
    next hother =>
      obtain rfl : other = name := by simpa using hother
      rw [hname text htext]
      exact ih htext

namespace Site

/-- The text with the definition of a name put in, if there is one and it is seen from the
offset. -/
def putName (t : Table Define) (depth offset : Nat) (text other : String) : String :=
  match (t.get? other).filter (·.visibleFrom depth offset) with
  | some d =>
    match d.expansion with
    | some e => if containsWord text d.ident.name then replaceWord text d.ident.name e.text
      else text
    | none => text
  | none => text

theorem substituted_eq_putName (env : Env) (w : Work) (text : String) (offset : Nat) :
    substituted env w text offset
      = w.program.defines.names.foldl (putName w.program.defines env.layer.depth offset) text := by
  rw [substituted, Table.values_eq_filterMap, List.foldl_filterMap]
  refine congrArg (fun f ↦ List.foldl f text _) (funext fun text ↦ funext fun other ↦ ?_)
  rw [putName]
  cases w.program.defines.get? other with
  | none => rfl
  | some d =>
    rw [Option.filter_some]
    dsimp only
    generalize d.visibleFrom env.layer.depth offset = seen
    cases seen with
    | true => rfl
    | false => cases d.expansion <;> rfl

end Site

namespace Overtaken

variable {depth reach offset : Nat} {name text : String} {t u : Table Define}
variable (h : Overtaken depth reach name t u)

include h

theorem isName {other : String} (hother : other ∈ name :: t.names) : IsName other :=
  (h.isIdentifier other hother).isName

/-- The name is not seen in the second table. -/
theorem unseen (hoffset : offset < reach) :
    (u.get? name).filter (·.visibleFrom depth offset) = none := by
  rw [Option.filter_eq_none_iff]
  exact fun d hd ↦ by simp [h.hidden hd offset hoffset]

theorem putName_name (hoffset : offset < reach) (text : String) :
    Site.putName u depth offset text name = text := by
  rw [Site.putName, h.unseen hoffset]

/-- Where the name is not mentioned, nothing else mentions it, and nothing is put in for it. -/
theorem not_mem_putName (hgone : t.get? name ≠ none) (htext : name ∉ wordsOf text)
    (other : String) : name ∉ wordsOf (Site.putName t depth offset text other) := by
  rw [Site.putName]
  split
  next d hd =>
    split
    next e he =>
      have hget := (Option.filter_eq_some_iff.1 hd).1
      split
      next =>
        intro hmem
        have hother := h.isName (List.mem_cons_of_mem _ (Table.mem_names_iff.2 ⟨d, hget⟩))
        rw [h.ident_name hget] at hmem
        obtain hmem | hmem := mem_wordsOf_replaceWord hother hmem
        · exact h.silent hget he hgone hmem
        · exact htext hmem.1
      next => exact htext
    next => exact htext
  next => exact htext

/-- Where the name is mentioned, it stays, because in the second table nothing is put in for it. -/
theorem mem_putName (hoffset : offset < reach) (htext : name ∈ wordsOf text) (other : String) :
    name ∈ wordsOf (Site.putName u depth offset text other) := by
  by_cases hname : other = name
  · rwa [hname, h.putName_name hoffset]
  rw [Site.putName, h.same other hname]
  split
  next d hd =>
    split
    next e he =>
      have hget := (Option.filter_eq_some_iff.1 hd).1
      split
      next =>
        have hother := h.isName (List.mem_cons_of_mem _ (Table.mem_names_iff.2 ⟨d, hget⟩))
        rw [h.ident_name hget, replaceWord_eq_mapWords hother, mem_wordsOf_mapWords]
        refine ⟨name, htext, ?_⟩
        rw [if_neg (Ne.symm hname), (h.isName List.mem_cons_self).mem_wordsOf_iff]
      next => exact htext
    next => exact htext
  next => exact htext

theorem putName_same {other : String} (hother : other ≠ name) (text : String) :
    Site.putName u depth offset text other = Site.putName t depth offset text other := by
  rw [Site.putName, Site.putName, h.same other hother]

/-- A text becomes the same with both tables if the name was new or is not mentioned. -/
theorem foldl_putName (hoffset : offset < reach)
    (hunused : ¬(t.get? name ≠ none ∧ name ∈ wordsOf text)) :
    u.names.foldl (Site.putName u depth offset) text
      = t.names.foldl (Site.putName t depth offset) text := by
  have hfirst : t.names.foldl (Site.putName t depth offset) text
      = (t.names.filter (· ≠ name)).foldl (Site.putName t depth offset) text := by
    by_cases hnew : t.get? name = none
    · exact foldl_filter_ne (P := fun _ ↦ True) (fun _ _ _ ↦ trivial)
        (fun text _ ↦ by rw [Site.putName, hnew]; rfl) _ trivial
    · refine foldl_filter_ne (P := (name ∉ wordsOf ·)) (fun text other htext ↦
        h.not_mem_putName hnew htext other) (fun text htext ↦ ?_) _ fun hmem ↦ hunused ⟨hnew, hmem⟩
      rw [Site.putName]
      split
      next d hd =>
        have hget := (Option.filter_eq_some_iff.1 hd).1
        have habsent : containsWord text d.ident.name = false := by
          rw [h.ident_name hget, ← Bool.not_eq_true, containsWord_iff (h.isName List.mem_cons_self)]
          exact htext
        rw [habsent]
        split <;> rfl
      next => rfl
  rw [foldl_filter_ne (P := fun _ ↦ True) (fun _ _ _ ↦ trivial)
    (fun text _ ↦ h.putName_name hoffset text) _ trivial, h.order, hfirst]
  refine List.foldl_ext _ _ _ fun text other hother ↦ h.putName_same ?_ text
  simpa using (List.mem_filter.1 hother).2

theorem mem_foldl_putName (hoffset : offset < reach) (htext : name ∈ wordsOf text)
    (names : List String) : name ∈ wordsOf (names.foldl (Site.putName u depth offset) text) := by
  induction names generalizing text with
  | nil => exact htext
  | cons other names ih => exact ih (h.mem_putName hoffset htext other)

end Overtaken

/-! ## Works and places

The definition that is gone cannot have the name of a variable in sight, or code that used that
variable would now find it. -/

/-- The same program with other definitions. -/
def Program.withDefines (p : Program) (u : Table Define) : Program :=
  { p with defines := u }

def Work.withDefines (w : Work) (u : Table Define) : Work :=
  ⟨w.program.withDefines u, w.scope⟩

/-- Names that are not definitions mean the same when the definitions are others. -/
theorem Env.sameMeaning_of_withDefines {R : Work → Work → Prop} {u : Table Define}
    (hR : ∀ {w w'}, R w w' → w' = w.withDefines u) (env : Env) : Env.SameMeaning R env env where
  vocabulary := rfl
  vars h := by
    rw [hR h]
    rfl
  scriptId? h name := by
    rw [hR h]
    rfl
  callee? h name := by
    rw [hR h]
    rfl

/-- The second work is the first with the definitions `u` instead of `t`. No global or script has
the name, and if it was a definition, no variable has it either. -/
structure Work.Overtaken (name : String) (t u : Table Define) (w w' : Work) : Prop where
  /-- All but the definitions is the same. -/
  eq : w' = w.withDefines u
  /-- The first work has the definitions `t`. -/
  defines : w.program.defines = t
  /-- No global has the name. -/
  globals : ∀ v ∈ w.program.globalIdents, v.name ≠ name
  /-- No script has the name. -/
  scripts : w.program.scriptId? name = none
  /-- If it was a definition, no variable of the scope has the name. -/
  vars : t.get? name ≠ none → ∀ v ∈ w.scope.vars, v.name ≠ name

/-- The runtime has nothing under the name, and if it was a definition, no parameter and no variable
of the enclosing scopes has it. -/
structure Env.Clear (l : Layer) (name : String) (t : Table Define) (env : Env) : Prop where
  /-- It is a place of the layer. -/
  layer : env.layer = l
  /-- The runtime has no such global. -/
  global : l.vocabulary.global? name = none
  /-- If it was a definition, no parameter and no outer variable has the name. -/
  vars : t.get? name ≠ none → ∀ v ∈ env.params ++ env.outer, v.name ≠ name

/-- Every place is in front of `reach`. -/
def Before (reach : Nat) (spans : List Span) : Prop :=
  ∀ r ∈ spans, r.start < reach

@[simp] theorem before_nil {reach : Nat} : Before reach [] :=
  List.forall_mem_nil _

@[simp] theorem before_cons {reach : Nat} {r : Span} {spans : List Span} :
    Before reach (r :: spans) ↔ r.start < reach ∧ Before reach spans :=
  List.forall_mem_cons

@[simp] theorem before_append {reach : Nat} {spans more : List Span} :
    Before reach (spans ++ more) ↔ Before reach spans ∧ Before reach more :=
  List.forall_mem_append

section

variable {l : Layer} {reach : Nat} {name : String} {t u : Table Define} {w w' : Work} {env : Env}

theorem Work.Overtaken.parallel : Work.Parallel (Work.Overtaken name t u) where
  numbers h := by
    rw [h.eq]
    rfl
  strings h := by
    rw [h.eq]
    rfl
  push is numbers strings h := { h with
    eq := by
      rw [h.eq]
      rfl }

theorem Env.sameMeaning_overtaken (env : Env) :
    Env.SameMeaning (Work.Overtaken name t u) env env :=
  Env.sameMeaning_of_withDefines (fun h ↦ h.eq) env

namespace Env.Clear

theorem enter (henv : env.Clear l name t) (h : Work.Overtaken name t u w w')
    (id : ScopeId) : (env.enter w.scope.vars.toList id).Clear l name t where
  layer := henv.layer
  global := henv.global
  vars := by
    intro hgone v hv
    rw [Env.enter, ← List.append_assoc, List.mem_append] at hv
    exact hv.elim (henv.vars hgone v) fun hv ↦ h.vars hgone v (Array.mem_def.2 hv)

/-- No variable has the name of an overtaken definition. -/
theorem slot?_eq_none (henv : env.Clear l name t) (h : Work.Overtaken name t u w w')
    (hgone : t.get? name ≠ none) : env.slot? name w = none := by
  rw [Env.slot?, List.findIdx?_eq_none_iff]
  intro v hv
  rw [Env.vars, List.append_assoc _ env.params, List.mem_append, List.mem_append] at hv
  have hne : v.name ≠ name := by
    obtain (hv | hv) | hv := hv
    · exact h.globals v hv
    · exact henv.vars hgone v hv
    · exact h.vars hgone v (Array.mem_def.2 hv)
  simpa using hne

/-- Nothing but a definition can be meant by the name. -/
theorem plainName_fails (henv : env.Clear l name t) (h : Work.Overtaken name t u w w')
    (hgone : t.get? name ≠ none) (fromTarget : Bool) (pos : Unit → Position) :
    env.plainName name fromTarget pos w' = .error (.unknownName (pos ()) name) w' := by
  have hslot : env.slot? name w' = none := by
    rw [h.eq]
    show env.slot? name w = none
    exact henv.slot?_eq_none h hgone
  have hscript : w'.program.scriptId? name = none := by
    rw [h.eq]
    exact h.scripts
  rw [Env.plainName, get_bind, hslot]
  dsimp only
  rw [hscript, henv.layer, henv.global]
  rfl

end Env.Clear

/-! ## Names and calculations -/

/-- The second run does the same as the first until the name is looked up, if it is gone. -/
def Comparison.following {R : Work → Work → Prop} (hR : Work.Parallel R) (gone : Prop)
    (name : String) : Comparison where
  alike := R
  parallel := hR
  Outcome names := Follows (gone ∧ name ∈ names) R
  of_agree h := .of_agree (fun hused ↦ nomatch hused.2) h
  of_error _ _ _ := nofun
  andThen h hfg := (h.andThen hfg).congr (by rw [List.mem_append, and_or_left])

/-- The comparison that this module is about. -/
abbrev Work.overtaking (name : String) (t u : Table Define) : Comparison :=
  .following (Work.Overtaken.parallel : Work.Parallel (Work.Overtaken name t u))
    (t.get? name ≠ none) name

/-- All stays what it is, in front of `reach`. -/
abbrev Motion.before (reach : Nat) : Motion :=
  .staying (·.start < reach) fun _ ↦ True

/-- The definition that a name stands for, unless it is the name that is gone. -/
theorem Overtaken.define?_eq (h : Overtaken l.depth reach name t u) (henv : env.Clear l name t)
    (hw : Work.Overtaken name t u w w') {s : String} (hs : ¬(t.get? name ≠ none ∧ name = s))
    {offset : Nat} (hoffset : offset < reach) :
      env.define? s offset w' = env.define? s offset w := by
  rw [Env.define?, Env.define?, hw.eq, hw.defines, henv.layer]
  show (u.get? s).filter _ = _
  by_cases hname : s = name
  · subst hname
    have hnew : t.get? s = none := by
      by_contra hgone
      exact hs ⟨hgone, rfl⟩
    rw [h.unseen hoffset, hnew]
    rfl
  · rw [h.same s hname]

theorem calculated_fails {text : String} (hname : IsIdentifier name) (h : name ∈ wordsOf text)
    (pos : Unit → Position) (w : Work) : ∃ e, calculated text pos w = .error e w := by
  rw [calculated]
  cases hvalue : evaluate text with
  | ok value => exact absurd hvalue (evaluate_ne_ok_of_identifier hname h value)
  | error e => exact ⟨_, rfl⟩

/-- Code in front of `reach` is read alike, unless it looks up the name that is gone. -/
theorem Site.reads_overtaken (h : Overtaken l.depth reach name t u) (henv : env.Clear l name t) :
    Site.Reads (Work.overtaking name t u) (.before reach) env (.written env) (.written env) where
  name := by
    rintro s fromTarget span _ ⟨rfl, hspan⟩
    refine .get_bind fun w w' hw ↦ ?_
    by_cases hused : t.get? name ≠ none ∧ name = s
    · obtain ⟨hgone, rfl⟩ := hused
      have hnone : env.define? name span.start w' = none := by
        rw [Env.define?, hw.eq, henv.layer]
        exact h.unseen hspan
      rw [hnone]
      intro w₁ w₂ hw₁ a w₃ _
      exact ⟨fun _ ↦ ⟨_, _, henv.plainName_fails hw₁ hgone fromTarget _⟩,
        fun hnot ↦ absurd ⟨hgone, List.mem_singleton_self _⟩ hnot⟩
    · rw [h.define?_eq henv hw hused hspan]
      have hunused : ¬(t.get? name ≠ none ∧ name ∈ [s]) := by
        rwa [List.mem_singleton]
      have hplain : Env.SameMeaning (Work.Overtaken name t u) env env :=
        Env.sameMeaning_overtaken env
      split
      · exact FollowsUnless.of_matches hunused (hplain.matches_plainName s fromTarget _ _)
      · split
        · exact FollowsUnless.of_throw
        · exact FollowsUnless.of_matches hunused
            (Expr.matches_inside Work.Overtaken.parallel hplain _ _ _)
  calculate := by
    rintro text span _ - ⟨rfl, hspan⟩
    refine .get_bind fun w w' hw ↦ ?_
    -- nothing is put in for the name, so a text with the name in it keeps it
    have hsecond : substituted env w' text span.start
        = u.names.foldl (putName u l.depth span.start) text := by
      rw [substituted_eq_putName, hw.eq, henv.layer]
      rfl
    have hfirst : substituted env w text span.start
        = t.names.foldl (putName t l.depth span.start) text := by
      rw [substituted_eq_putName, henv.layer, hw.defines]
    rw [hfirst, hsecond]
    by_cases hused : t.get? name ≠ none ∧ name ∈ wordsOf text
    · intro w₁ w₂ _ a w₃ _
      obtain ⟨e, he⟩ := calculated_fails (h.isIdentifier name List.mem_cons_self)
        (h.mem_foldl_putName hspan hused.2 u.names) (fun _ ↦ env.layer.pos span) w₂
      exact ⟨fun _ ↦ ⟨e, w₂, he⟩, fun hnot ↦ absurd hused hnot⟩
    · rw [h.foldl_putName hspan hused]
      exact FollowsUnless.of_matches hused (matches_calculated _ _ _)

/-! ## Statements -/

/-- A variable can only be declared with a name that was new, so no variable gets one that is
gone. -/
theorem declares_overtaken (h : Overtaken l.depth reach name t u) (henv : env.Clear l name t)
    (s : String) {span : Span} (hspan : span.start < reach) (value : Operand) :
    (Work.overtaking name t u).Holds [] (lowerLet env s span value)
      (lowerLet env s span value) := by
  by_cases hs : t.get? name ≠ none ∧ name = s
  · obtain ⟨hgone, rfl⟩ := hs
    obtain ⟨d, hd⟩ := Option.ne_none_iff_exists'.1 hgone
    refine .get_bind fun w w' hw ↦ ?_
    have htaken : (env.taken? name span.start w).isSome := by
      have hdefine : env.define? name span.start w = some d := by
        rw [Env.define?, hw.defines, hd, henv.layer, Option.filter_some, if_pos (h.seen hd _)]
      rw [Env.taken?, hdefine]
      simp
    obtain ⟨other, hother⟩ := Option.isSome_iff_exists.1 htaken
    rw [hother]
    exact FollowsUnless.of_throw
  · refine .of_matches ((Env.sameMeaning_overtaken env).matches_lowerLet Work.Overtaken.parallel
      (fun hw ↦ ?_) (.modify fun w w' hw ↦ ?_) value)
    · rw [Env.taken?, Env.taken?, h.define?_eq henv hw hs hspan, hw.eq]
      rfl
    · refine { hw with eq := by rw [hw.eq]; rfl, vars := fun hgone v hv ↦ ?_ }
      obtain hv | rfl := Array.mem_push.1 hv
      · exact hw.vars hgone v hv
      · exact fun heq ↦ hs ⟨hgone, heq.symm⟩

/-- Both runs are at one place, which the name is not in the way of. -/
def Env.BothClear (l : Layer) (name : String) (t : Table Define) (env env' : Env) : Prop :=
  env = env' ∧ env.Clear l name t

theorem Overtaken.along (h : Overtaken l.depth reach name t u) :
    (Work.overtaking name t u).Along (.before reach) (Env.BothClear l name t) where
  names := by
    rintro env _ ⟨rfl, -⟩
    exact Env.sameMeaning_overtaken env
  reads := by
    rintro env _ ⟨rfl, henv⟩
    exact Site.reads_overtaken h henv
  declares := by
    rintro env _ span _ ⟨rfl, henv⟩ ⟨rfl, hspan⟩ s value
    exact declares_overtaken h henv s hspan value
  pools := by
    rintro env _ w w' ⟨rfl, -⟩ hw
    rw [hw.eq]
    rfl
  opened := by
    rintro env _ w w' ⟨rfl, -⟩ hw
    exact { hw with
      eq := by rw [hw.eq]; rfl
      vars := fun _ v hv ↦ absurd hv (Array.not_mem_empty v) }
  enter := by
    rintro env _ w w' ⟨rfl, henv⟩ hw
    refine ⟨?_, henv.enter hw _⟩
    rw [hw.eq]
    rfl
  closed := by
    intro env env' w w' s s' _ hw hs _ _
    exact { hs with
      eq := by rw [hs.eq, hw.eq]; rfl
      vars := hw.vars }

theorem follows_lowerStmts (h : Overtaken l.depth reach name t u) (stmts : List Stmt)
    (henv : env.Clear l name t) (hspans : Before reach (stmtSpans stmts)) :
    FollowsUnless (t.get? name ≠ none ∧ name ∈ stmtLookups stmts) (Work.Overtaken name t u)
      (lowerStmts env stmts) (lowerStmts env stmts) :=
  (stmtsMove_self stmts (fun r hr ↦ Motion.keeps_staying (hspans r hr)) fun _ _ ↦ trivial).holds
    h.along ⟨rfl, henv⟩

end

end CharacterScript
