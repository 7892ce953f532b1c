import CharacterScript.Proofs.Redefining.Lowering
import CharacterScript.Proofs.Relocation.Layers
import CharacterScript.Proofs.Rereading
import CharacterScript.Proofs.Substitution

/-!
# Lowering code whose definitions are worded in another way

Of a definition that is used, lowering takes the tree it was expanded to. So code is lowered to the
same if its definitions are expanded to trees that are lowered to the same (`Expansion.Alike`),
whatever their texts are.

A calculation is the exception. The text of the definition is put into it, so the definitions that a
calculation mentions have to be expanded to the same text (`SameIn`).

## An instance of a comparison

The code is the same, the works differ in their definitions only, and the runs agree;
`StmtsMove.holds` goes through the code. The motion is the one that keeps everything where it is
and allows only those calculations whose definitions are expanded to the same text.
-/

namespace CharacterScript

open Expansion Running

/-! ## Definitions

Trees that are lowered to the same are found by motions, so an expansion may differ in places, and
in whatever else makes no difference to lowering. -/

/-- Expansions that are lowered to the same wherever they are used, up to the places in a
problem. -/
def Expansion.Alike (e e' : Expansion) : Prop :=
  ∀ env pos, Matches Eq Eq (e.tree.lower env (.inside env pos))
    (e'.tree.lower env (.inside env pos))

theorem Expansion.Alike.refl (e : Expansion) : e.Alike e :=
  fun _ _ ↦ .refl _

theorem Expansion.Alike.symm {e e' : Expansion} (h : e.Alike e') : e'.Alike e :=
  fun env pos ↦ (h env pos).symm

theorem Expansion.Alike.trans {e e' e'' : Expansion} (h : e.Alike e') (h' : e'.Alike e'') :
    e.Alike e'' :=
  fun env pos ↦ (h env pos).trans_eq (h' env pos)

/-- Places of a tree have no part in what it is lowered to inside a definition. -/
theorem Expansion.alike_of_moves {e e' : Expansion} (h : e.tree.Moves .same e'.tree) :
    e.Alike e' := by
  intro env pos
  have hparallel : Work.Parallel Eq :=
    ⟨fun h ↦ h ▸ rfl, fun h ↦ h ▸ rfl, fun _ _ _ h ↦ h ▸ rfl⟩
  have hnames : Env.SameMeaning Eq env env := by
    refine ⟨rfl, ?_, ?_, ?_⟩
    all_goals
      rintro w _ rfl
      intros
      rfl
  exact h.matches_inside hparallel hnames pos pos

/-- Definitions that differ in their texts, and are expanded to what is lowered to the same. -/
structure Define.Reworded (d d' : Define) : Prop where
  /-- It has the same name, at the same position. -/
  ident : d'.ident = d.ident
  /-- It belongs to the same layer. -/
  depth : d'.depth = d.depth
  /-- It stands at the same offset. -/
  offset : d'.offset = d.offset
  /-- If one is expanded both are, to what is lowered to the same. -/
  expansion : Option.Rel Expansion.Alike d.expansion d'.expansion

theorem Define.Reworded.visibleFrom {d d' : Define} (h : d.Reworded d') (depth offset : Nat) :
    d'.visibleFrom depth offset = d.visibleFrom depth offset := by
  rw [Define.visibleFrom, Define.visibleFrom, h.depth, h.offset]

/-- The definitions that a text mentions are expanded to the same texts. -/
def SameIn (t u : Table Define) (text : String) : Prop :=
  ∀ w ∈ wordsOf text, textOf? u w = textOf? t w

/-- The second table is the first with its definitions reworded. All are expanded, so that no
expansion mentions a definition. -/
structure Rewording (t u : Table Define) : Prop where
  /-- The definitions are the same but for their wording. -/
  alike : t.Alike Define.Reworded u
  /-- They are found under words. -/
  isName : ∀ name ∈ t.names, IsName name
  /-- A definition has the name it is found under. -/
  ident_name : ∀ {name d}, t.get? name = some d → d.ident.name = name
  /-- No expansion mentions a definition. -/
  silent : ∀ {name d e}, t.get? name = some d → d.expansion = some e →
    ∀ w ∈ wordsOf e.text, t.get? w = none

namespace Rewording

variable {t u : Table Define} {text : String}

/-- Into a text whose definitions are expanded to the same, the same is put for a name. -/
theorem putName_eq (h : Rewording t u) (hsame : SameIn t u text) (depth offset : Nat)
    (name : String) :
    Site.putName u depth offset text name = Site.putName t depth offset text name := by
  rw [Site.putName, Site.putName]
  obtain ⟨hd, hd'⟩ | ⟨d, d', hd, hd', hreworded⟩ := both_of_rel (h.alike.get? name)
  · rw [hd, hd']
  rw [hd, hd', Option.filter_some, Option.filter_some, hreworded.visibleFrom]
  by_cases hvisible : d.visibleFrom depth offset = true
  · rw [if_pos hvisible, if_pos hvisible]
    dsimp only
    obtain ⟨he, he'⟩ | ⟨e, e', he, he', -⟩ := both_of_rel hreworded.expansion
    · rw [he, he']
    · rw [he, he', hreworded.ident, h.ident_name hd]
      dsimp only
      split
      next hcontains =>
        have hname := h.isName name (Table.mem_names_iff.2 ⟨d, hd⟩)
        have htexts : e'.text = e.text := by
          simpa [textOf?, hd, hd', he, he'] using hsame name ((containsWord_iff hname).1 hcontains)
        rw [htexts]
      next => rfl
  · rw [if_neg hvisible, if_neg hvisible]

/-- What is put in mentions no definition, so the rest of the text still has definitions that are
expanded to the same. -/
theorem sameIn_putName (h : Rewording t u) (hsame : SameIn t u text) (depth offset : Nat)
    (name : String) : SameIn t u (Site.putName t depth offset text name) := by
  rw [Site.putName]
  split
  next d hd =>
    split
    next e he =>
      have hget := (Option.filter_eq_some_iff.1 hd).1
      split
      next =>
        intro w hw
        have hname := h.isName name (Table.mem_names_iff.2 ⟨d, hget⟩)
        rw [h.ident_name hget] at hw
        obtain hnew | ⟨hold, -⟩ := mem_wordsOf_replaceWord hname hw
        · have hnone := h.silent hget he w hnew
          have hnone' : u.get? w = none := by
            obtain ⟨-, hu⟩ | ⟨_, _, ht, -⟩ := both_of_rel (h.alike.get? w)
            · exact hu
            · cases hnone.symm.trans ht
          rw [textOf?, textOf?, hnone, hnone']
        · exact hsame w hold
      next => exact hsame
    next => exact hsame
  next => exact hsame

theorem foldl_putName (h : Rewording t u) (depth offset : Nat) (names : List String) :
    ∀ {text : String}, SameIn t u text →
    names.foldl (Site.putName u depth offset) text
      = names.foldl (Site.putName t depth offset) text := by
  induction names with
  | nil => exact fun _ ↦ rfl
  | cons name names ih =>
    intro text hsame
    rw [List.foldl_cons, List.foldl_cons, h.putName_eq hsame]
    exact ih (h.sameIn_putName hsame depth offset name)

end Rewording

/-! ## Works -/

/-- The second work is the first with the definitions `u` instead of `t`. -/
structure Work.Exchanged (t u : Table Define) (w w' : Work) : Prop where
  /-- All but the definitions is the same. -/
  eq : w' = w.withDefines u
  /-- The first work has the definitions `t`. -/
  defines : w.program.defines = t

section

variable {t u : Table Define} {env : Env} {w w' : Work}

theorem Work.Exchanged.parallel : Work.Parallel (Work.Exchanged t u) where
  numbers h := by
    rw [h.eq]
    rfl
  strings h := by
    rw [h.eq]
    rfl
  push is numbers strings h := { h with
    eq := by
      rw [h.eq]
      rfl }

theorem Env.sameMeaning_exchanged (env : Env) : Env.SameMeaning (Work.Exchanged t u) env env :=
  Env.sameMeaning_of_withDefines (fun h ↦ h.eq) env

namespace Rewording

variable (h : Rewording t u) (hw : Work.Exchanged t u w w')

include h hw

theorem define? (name : String) (offset : Nat) :
    Option.Rel Define.Reworded (env.define? name offset w) (env.define? name offset w') := by
  rw [Env.define?, Env.define?, hw.eq, hw.defines]
  show Option.Rel _ ((t.get? name).filter _) ((u.get? name).filter _)
  obtain ⟨hd, hd'⟩ | ⟨d, d', hd, hd', hreworded⟩ := both_of_rel (h.alike.get? name)
  · rw [hd, hd']
    exact .none
  · rw [hd, hd', Option.filter_some, Option.filter_some, hreworded.visibleFrom]
    split
    · exact .some hreworded
    · exact .none

theorem taken?_eq (name : String) (offset : Nat) :
    env.taken? name offset w' = env.taken? name offset w := by
  have hdefine : (env.define? name offset w').map (·.ident) =
      (env.define? name offset w).map (·.ident) := by
    obtain ⟨hd, hd'⟩ | ⟨d, d', hd, hd', hreworded⟩ := both_of_rel (h.define? hw name offset)
    · rw [hd, hd']
    · rw [hd, hd', Option.map_some, Option.map_some, hreworded.ident]
  rw [Env.taken?, Env.taken?, hdefine, hw.eq]
  rfl

theorem substituted_eq {text : String} (hsame : SameIn t u text) (offset : Nat) :
    Site.substituted env w' text offset = Site.substituted env w text offset := by
  rw [Site.substituted_eq_putName, Site.substituted_eq_putName, hw.eq, hw.defines,
    ← h.foldl_putName _ _ _ hsame]
  show u.names.foldl _ _ = _
  rw [← h.alike.names]
  rfl

end Rewording

/-! ## Names and calculations

A definition is seen in both tables or in neither, from everywhere. -/

/-- The comparison that this module is about. -/
abbrev Work.exchanging (t u : Table Define) : Comparison :=
  .agreeing (Work.Exchanged.parallel : Work.Parallel (Work.Exchanged t u))

/-- All stays what it is, and the definitions that the calculations mention are expanded to the
same. -/
abbrev Motion.calculating (t u : Table Define) : Motion :=
  .staying (fun _ ↦ True) (SameIn t u)

theorem Rewording.reads_written (h : Rewording t u) (env : Env) :
    Site.Reads (Work.exchanging t u) (.calculating t u) env (.written env) (.written env) where
  name := by
    rintro s fromTarget span _ ⟨rfl, -⟩
    refine .get_bind fun w w' hw ↦ ?_
    obtain ⟨hd, hd'⟩ | ⟨d, d', hd, hd', hreworded⟩ := both_of_rel (h.define? hw s span.start)
    · rw [hd, hd']
      exact (Env.sameMeaning_exchanged env).matches_plainName s fromTarget _ _
    · rw [hd, hd']
      dsimp only
      obtain ⟨he, he'⟩ | ⟨e, e', he, he', halike⟩ := both_of_rel hreworded.expansion
      · rw [he, he']
        exact .throw rfl
      · rw [he, he']
        exact (Expr.matches_inside Work.Exchanged.parallel (Env.sameMeaning_exchanged env)
          _ _ _).trans_eq (halike env _)
  calculate := by
    rintro text span _ hsame ⟨rfl, -⟩
    refine .get_bind fun w w' hw ↦ ?_
    rw [h.substituted_eq hw hsame]
    exact matches_calculated _ _ _

/-! ## Statements -/

theorem Rewording.along (h : Rewording t u) :
    (Work.exchanging t u).Along (.calculating t u) Eq where
  names := by
    rintro env _ rfl
    exact Env.sameMeaning_exchanged env
  reads := by
    rintro env _ rfl
    exact h.reads_written env
  declares := by
    rintro env _ span _ rfl ⟨rfl, -⟩ s value
    refine .of_matches ((Env.sameMeaning_exchanged env).matches_lowerLet Work.Exchanged.parallel
      (fun hw ↦ ?_) (.modify fun w w' hw ↦ ?_) value)
    · rw [h.taken?_eq hw]
    · exact { hw with eq := by rw [hw.eq]; rfl }
  pools := by
    rintro env _ w w' rfl hw
    rw [hw.eq]
    rfl
  opened := by
    rintro env _ w w' rfl hw
    exact { hw with eq := by rw [hw.eq]; rfl }
  enter := by
    rintro env _ w w' rfl hw
    rw [hw.eq]
    rfl
  closed := by
    intro env env' w w' s s' _ hw hs _ _
    exact { hs with eq := by rw [hs.eq, hw.eq]; rfl }

theorem matches_lowerStmts_reworded (h : Rewording t u) (stmts : List Stmt)
    (hsame : ∀ text ∈ stmtCalculations stmts, SameIn t u text) :
    Matches (Work.Exchanged t u) Eq (lowerStmts env stmts) (lowerStmts env stmts) :=
  (stmtsMove_self stmts (fun _ _ ↦ Motion.keeps_staying trivial) hsame).holds h.along rfl

end

end CharacterScript
