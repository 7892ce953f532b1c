import CharacterScript.Session
import CharacterScript.Proofs.Interface.Declaring

/-!
# Expanding the definitions of two programs

All expansions are made anew from the texts, in the order of the table, so two tables with the same
names and texts get the same expansions, whatever they had been expanded to before, or they fail
alike.

## Side by side

Expanding goes through the texts of a table, and what it does next depends on names, texts and on
what has been expanded already. Two tables that are the same in this are expanded in step, to the
same texts and trees or into the same circle. `Indistinct` is what is asked of the relation
between the tables, so that the same proof does for tables that differ in other things.
-/

namespace CharacterScript

open Running

namespace Expansion

/-- Tables that a step of expanding cannot tell apart: at each place there are definitions with one
name, one text and one expansion, and this stays so when a text that was read is noted at a
place. -/
structure Indistinct (R : Table Define → Table Define → Prop) : Prop where
  /-- There are as many definitions. -/
  size : ∀ {t u}, R t u → t.size = u.size
  /-- At a place are definitions that expand in the same way, or none. -/
  at? : ∀ {t u}, R t u → ∀ i, (t.at? i = none ∧ u.at? i = none) ∨
    ∃ name d e, t.at? i = some (name, d) ∧ u.at? i = some (name, e) ∧ d.text = e.text ∧
      d.expansion = e.expansion
  /-- A step that is made in both keeps this. -/
  note : ∀ {t u}, R t u → ∀ {name pos text e}, read name pos text = .ok e → ∀ i,
    R (t.modifyAt i fun d ↦ { d with expansion := some e })
      (u.modifyAt i fun d ↦ { d with expansion := some e })

variable {R : Table Define → Table Define → Prop} {t u : Table Define}

theorem coded_read (name : String) (pos pos' : Position) (text : String) :
    coded (read name pos text) = coded (read name pos' text) := by
  rw [read, read]
  cases lex text with
  | error e => rfl
  | ok ts =>
    dsimp only
    cases parseExpression text ts <;> rfl

section

variable (hR : Indistinct R)

include hR

theorem matches_substitute {expandOther : Nat → EStateM Problem (Table Define) Unit}
    (hother : ∀ i, Matches R Eq (expandOther i) (expandOther i)) (text : String) (other : Nat) :
    Matches R Eq (substitute expandOther text other) (substitute expandOther text other) := by
  refine .get_bind fun t u h ↦ ?_
  obtain ⟨ht, hu⟩ | ⟨name, d, e, ht, hu, -, hexpansion⟩ := hR.at? h other
  · rw [ht, hu]
    exact .pure _
  · rw [ht, hu]
    dsimp only
    rw [hexpansion]
    split
    · refine .ite Iff.rfl (.bind (hother other) fun _ ↦ ?_) ?_
      -- expanded just now or before, the other definition is looked up again
      all_goals
        refine .get_bind fun t u h ↦ ?_
        obtain ⟨ht, hu⟩ | ⟨_, d, e, ht, hu, -, hexpansion⟩ := hR.at? h other
        · rw [ht, hu]
          exact .pure _
        · rw [ht, hu]
          dsimp only [Option.bind_some]
          rw [hexpansion]
          split <;> exact .pure _
    · exact .pure _

theorem matches_expand (budget index : Nat) :
    Matches R Eq (expand budget index) (expand budget index) := by
  induction budget generalizing index with
  | zero =>
    refine .get_bind fun t u h ↦ ?_
    obtain ⟨ht, hu⟩ | ⟨name, d, e, ht, hu, -⟩ := hR.at? h index
    · rw [ht, hu]
      exact .pure _
    · rw [ht, hu]
      exact .throw rfl
  | succ budget ih =>
    refine .get_bind fun t u h ↦ ?_
    obtain ⟨ht, hu⟩ | ⟨name, d, e, ht, hu, htext, -⟩ := hR.at? h index
    · rw [ht, hu]
      exact .pure _
    · rw [ht, hu]
      refine .get_bind fun t u h ↦ ?_
      rw [hR.size h, htext]
      refine .bind (.foldlM (matches_substitute hR ih) _ _) fun text ↦ ?_
      have hread := coded_read name d.ident.pos e.ident.pos text
      cases hd : read name d.ident.pos text <;> cases he : read name e.ident.pos text <;>
        rw [hd, he] at hread
      case error.error => exact .throw (Except.error.inj hread)
      case ok.ok expansion expansion' =>
        obtain rfl : expansion = expansion' := Except.ok.inj hread
        exact .modify fun t u h ↦ hR.note h hd index
      all_goals contradiction

theorem matches_ensure (index : Nat) : Matches R Eq (ensure index) (ensure index) := by
  refine .get_bind fun t u h ↦ ?_
  obtain ⟨ht, hu⟩ | ⟨name, d, e, ht, hu, -, hexpansion⟩ := hR.at? h index
  · rw [ht, hu]
    exact .pure _
  · rw [ht, hu]
    exact .ite (by rw [hexpansion]) (matches_expand hR budget index) (.pure _)

/-- Expanding does not depend on what definitions were expanded to before. -/
theorem agree_expandAll_of_reset (h : R (t.map Define.reset) (u.map Define.reset)) :
    Agree R Eq (expandAll t) (expandAll u) := by
  rw [expandAll, modify_bind, modify_bind, get_bind, get_bind, hR.size h]
  exact Matches.forM (matches_ensure hR) _ _ _ h

end

end Expansion

/-- A layer sees the same definitions, expansions included. -/
def Layer.SameDefines (l : Layer) (t u : Table Define) : Prop :=
  t.view l.viewDefine = u.view l.viewDefine

theorem Layer.indistinct_sameDefines (l : Layer) : Expansion.Indistinct l.SameDefines where
  size := Table.size_of_view
  at? := by
    intro t u h i
    obtain hnone | ⟨name, d, e, ht, hu, hview⟩ := Table.at?_cases_of_view h i
    · exact .inl hnone
    · exact .inr ⟨name, d, e, ht, hu, congrArg Layer.DefineView.text hview,
        congrArg Layer.DefineView.expansion hview⟩
  note := by
    intro t u h _ _ _ e _ i
    exact Table.view_modifyAt h i fun _ _ hab ↦
      congrArg (fun view : Layer.DefineView ↦ { view with expansion := some e }) hab

theorem Expansion.agree_expandAll {l : Layer} {t u : Table Define}
    (h : t.view (l.viewDefine ∘ Define.reset) = u.view (l.viewDefine ∘ Define.reset)) :
    Agree l.SameDefines Eq (expandAll t) (expandAll u) := by
  refine agree_expandAll_of_reset l.indistinct_sameDefines ?_
  rw [Layer.SameDefines, Table.view_map, Table.view_map]
  exact h

end CharacterScript
