import CharacterScript.Proofs.Recursion
import CharacterScript.Proofs.Relocation.Definitions
import CharacterScript.Proofs.Rewording.Lowering

/-!
# Expanding definitions that are worded in another way

Two tables have the same names, and at each name texts that are expanded to what is read alike
(`ExpandAlike`). If all can be expanded in both, they are lowered to the same.

## Side by side

If this is not known, the texts of one name have to mention the same definitions (`MentionAlike`).
The tables are then expanded side by side: in the same order, and with the same definitions left to
put in at each step, since what is put in mentions none. So if one runs into a circle the other
does.

## Texts and words

What a step of expanding does to a text depends on which of its words are defined and on nothing
else that is in it. Comments are such other things: their words count, and the rest of them does
not. So two texts with the same defined words go through the same steps, however different they
are.
-/

namespace CharacterScript

open Running

namespace Expansion

variable {same : String → String → Prop} {text? text?' : String → Option String}

/-- Texts that mention the same of what is defined. -/
def Comention (text? : String → Option String) (text text' : String) : Prop :=
  ∀ w, text? w ≠ none → (w ∈ wordsOf text' ↔ w ∈ wordsOf text)

/-- The two texts of a name mention the same definitions. -/
def MentionAlike (text? text?' : String → Option String) : Prop :=
  ∀ {name body body'}, text? name = some body → text?' name = some body' →
    Comention text? body body'

/-- The two texts of a name are expanded to texts that are the same in this sense. -/
def ExpandAlike (same : String → String → Prop) (text? text?' : String → Option String) : Prop :=
  ∀ {name body body' out out'}, text? name = some body → text?' name = some body' →
    Expands text? body out → Expands text?' body' out' → same out out'

theorem MentionAlike.refl : MentionAlike text? text? := by
  intro name body body' h h'
  cases h.symm.trans h'
  exact fun _ _ ↦ Iff.rfl

theorem ExpandAlike.refl (hsame : ∀ text, same text text) : ExpandAlike same text? text? := by
  intro name body body' out out' h h' hout hout'
  cases h.symm.trans h'
  cases hout.unique hout'
  exact hsame _

section

variable (hwords : ∀ {name body}, text? name = some body → ∀ w ∈ wordsOf body, text? w = none)

include hwords

theorem MentionAlike.of_silent
    (hwords' : ∀ {name body}, text?' name = some body → ∀ w ∈ wordsOf body, text? w = none) :
    MentionAlike text? text?' :=
  fun h h' w hw ↦ iff_of_false (fun hmem ↦ hw (hwords' h' w hmem)) fun hmem ↦ hw (hwords h w hmem)

/-- Texts that mention nothing that is defined need only be the same as they are. -/
theorem ExpandAlike.of_silent
    (hwords' : ∀ {name body}, text?' name = some body → ∀ w ∈ wordsOf body, text?' w = none)
    (hsame : ∀ {name body body'}, text? name = some body → text?' name = some body' →
    same body body') :
    ExpandAlike same text? text?' := by
  intro name body body' out out' h h' hout hout'
  rw [hout.eq_self (hwords h), hout'.eq_self (hwords' h')]
  exact hsame h h'

end

/-- Texts that are the same in this sense are read as expansions that are lowered to the same, or
refused for the same reason. -/
def ReadsAlike (same : String → String → Prop) : Prop :=
  ∀ {text text'}, same text text' → ∀ name pos pos',
    Answers Expansion.Alike (read name pos text) (read name pos' text')

/-- Tables that are expanded side by side. -/
structure Coupled (text? text?' : String → Option String) (t u : Table Define) : Prop where
  /-- The definitions are the same but for their wording. -/
  alike : t.Alike Define.Reworded u
  /-- What the first table has so far is right. -/
  left : Consistent t
  /-- So is what the second has. -/
  right : Consistent u
  /-- The texts of the first stay what they were at the start. -/
  texts : texts t = text?
  /-- So do those of the second. -/
  texts' : Expansion.texts u = text?'

namespace Coupled

variable {t u : Table Define} (h : Coupled text? text?' t u)

include h

theorem undefined {w : String} (hw : text?' w = none) : text? w = none := by
  rw [← h.texts'] at hw
  rw [← h.texts]
  obtain ⟨hd, -⟩ | ⟨d, d', -, hd', -⟩ := both_of_rel (h.alike.get? w)
  · exact texts_of_none hd
  · cases hw.symm.trans (texts_of_get? hd')

theorem isName {i : Nat} {name : String} {d : Define} (hd : t.at? i = some (name, d)) :
    IsName name :=
  h.left.isName name (Table.mem_names_iff.2 ⟨d, Table.get?_eq_some_iff.2 ⟨i, hd⟩⟩)

theorem defined {i : Nat} {name : String} {d : Define} (hd : t.at? i = some (name, d)) :
    text? name = some d.text := by
  rw [← h.texts]
  exact texts_of_at? hd

theorem defined' {i : Nat} {name : String} {d : Define} (hd : u.at? i = some (name, d)) :
    text?' name = some d.text := by
  rw [← h.texts']
  exact texts_of_at? hd

/-- What is put in mentions nothing that is defined. -/
theorem words {i : Nat} {name : String} {d : Define} {e : Expansion}
    (hd : t.at? i = some (name, d)) (he : d.expansion = some e) :
      ∀ w ∈ wordsOf e.text, text? w = none := by
  intro w hw
  rw [← h.texts]
  exact (h.left.expands (Table.get?_eq_some_iff.2 ⟨i, hd⟩) he).words hw

theorem words' {i : Nat} {name : String} {d : Define} {e : Expansion}
    (hd : u.at? i = some (name, d)) (he : d.expansion = some e) :
      ∀ w ∈ wordsOf e.text, text? w = none := by
  intro w hw
  refine h.undefined ?_
  rw [← h.texts']
  exact (h.right.expands (Table.get?_eq_some_iff.2 ⟨i, hd⟩) he).words hw

/-- What two definitions were expanded to is kept. -/
theorem note {i : Nat} {name : String} {d d' : Define} {e e' : Expansion}
    (hd : t.at? i = some (name, d)) (hd' : u.at? i = some (name, d'))
    (he : Expands text? d.text e.text)
    (he' : Expands text?' d'.text e'.text) (halike : e.Alike e') :
    Coupled text? text?' (t.modifyAt i fun d ↦ { d with expansion := some e })
      (u.modifyAt i fun d ↦ { d with expansion := some e' }) := by
  obtain ⟨hadvances, -⟩ := advances_modifyAt h.left hd (h.texts ▸ he) rfl
  obtain ⟨hadvances', -⟩ := advances_modifyAt h.right hd' (h.texts' ▸ he') rfl
  exact ⟨h.alike.modifyAt i fun _ _ hreworded ↦ { hreworded with expansion := .some halike },
    hadvances.consistent, hadvances'.consistent, hadvances.texts.texts.trans h.texts,
    hadvances'.texts.texts.trans h.texts'⟩

end Coupled

/-- With a definition put in that mentions none, its name is gone. -/
theorem mem_wordsOf_replaceWord_iff {text name e w : String} (hname : IsName name)
    (he : ∀ v ∈ wordsOf e, text? v = none) (hw : text? w ≠ none) :
    w ∈ wordsOf (replaceWord text name e) ↔ w ∈ wordsOf text ∧ w ≠ name := by
  constructor
  · intro hmem
    obtain hnew | hold := mem_wordsOf_replaceWord hname hmem
    · exact absurd (he w hnew) hw
    · exact hold
  · rintro ⟨hmem, hne⟩
    rw [replaceWord_eq_mapWords hname, mem_wordsOf_mapWords]
    refine ⟨w, hmem, ?_⟩
    rw [if_neg hne, (isName_of_mem_wordsOf hmem).mem_wordsOf_iff]

section

variable {t u : Table Define} {text text' : String}

theorem Comention.replaceWord {name e e' : String} (h : Comention text? text text')
    (hname : IsName name) (he : ∀ v ∈ wordsOf e, text? v = none)
    (he' : ∀ v ∈ wordsOf e', text? v = none) :
    Comention text? (replaceWord text name e) (replaceWord text' name e') := by
  intro w hw
  rw [mem_wordsOf_replaceWord_iff hname he hw, mem_wordsOf_replaceWord_iff hname he' hw, h w hw]

theorem Comention.containsWord_eq {name : String} (h : Comention text? text text')
    (hname : IsName name)
    (hdefined : text? name ≠ none) : containsWord text' name = containsWord text name := by
  rw [Bool.eq_iff_iff, containsWord_iff hname, containsWord_iff hname]
  exact h name hdefined

/-- One definition is put into both texts, or into neither. -/
theorem matches_substitute_reworded {x : Nat → EStateM Problem (Table Define) Unit}
    (hx : ∀ i, Matches (Coupled text? text?') Eq (x i) (x i)) (i : Nat)
    (htexts : Comention text? text text') :
    Matches (Coupled text? text?') (Comention text?) (substitute x text i)
      (substitute x text' i) := by
  refine .get_bind fun t u h ↦ ?_
  obtain ⟨hd, hd'⟩ | ⟨name, d, d', hd, hd', hreworded⟩ := h.alike.at? i
  · rw [hd, hd']
    exact fun _ _ h ↦ ⟨htexts, h⟩
  rw [hd, hd']
  dsimp only
  have hname := h.isName hd
  have hdefined : text? name ≠ none := by
    rw [h.defined hd]
    exact Option.some_ne_none _
  have hnone : d.expansion.isNone ↔ d'.expansion.isNone := by
    obtain ⟨he, he'⟩ | ⟨e, e', he, he', -⟩ := both_of_rel hreworded.expansion
    all_goals rw [he, he']
    rfl
  refine .ite (by rw [htexts.containsWord_eq hname hdefined])
    (.ite hnone (.bind (hx i) fun _ ↦ ?_) ?_) fun _ _ h ↦ ⟨htexts, h⟩
  -- expanded just now or before, the definition is looked up again
  all_goals
    refine .get_bind fun t u h ↦ ?_
    obtain ⟨hd, hd'⟩ | ⟨_, d, d', hd, hd', hreworded⟩ := h.alike.at? i
    · rw [hd, hd']
      exact fun _ _ h ↦ ⟨htexts, h⟩
    · rw [hd, hd']
      dsimp only [Option.bind_some]
      obtain ⟨he, he'⟩ | ⟨e, e', he, he', -⟩ := both_of_rel hreworded.expansion
      · rw [he, he']
        exact fun _ _ h ↦ ⟨htexts, h⟩
      · rw [he, he']
        exact fun _ _ h' ↦ ⟨htexts.replaceWord hname (h.words hd he) (h.words' hd' he'), h'⟩

theorem matches_foldlM_reworded {x : Nat → EStateM Problem (Table Define) Unit}
    (hx : ∀ i, Matches (Coupled text? text?') Eq (x i) (x i)) (places : List Nat) :
    ∀ {text text' : String}, Comention text? text text' →
    Matches (Coupled text? text?') (Comention text?) (places.foldlM (substitute x) text)
      (places.foldlM (substitute x) text') := by
  induction places with
  | nil => exact fun htexts _ _ h ↦ ⟨htexts, h⟩
  | cons i places ih =>
    intro text text' htexts t u h
    rw [List.foldlM_cons, List.foldlM_cons]
    exact (matches_substitute_reworded hx i htexts t u h).bind fun _ _ t u _ _ htexts h ↦
      ih htexts t u h

/-! ## Expanding

The tables are changed at the same place at each step, and what is noted there is read alike. -/

variable (hmention : MentionAlike text? text?') (hexpand : ExpandAlike same text? text?')
  (hread : ReadsAlike same)

include hmention hexpand hread

theorem matches_expand_reworded : ∀ budget i : Nat,
    Matches (Coupled text? text?') Eq (expand budget i) (expand budget i)
  | 0, i => by
    refine .get_bind fun t u h ↦ ?_
    obtain ⟨hd, hd'⟩ | ⟨name, d, d', hd, hd', -⟩ := h.alike.at? i
    · rw [hd, hd']
      exact .pure _
    · rw [hd, hd']
      exact .throw rfl
  | budget + 1, i => by
    intro t u h
    rw [expand, get_bind, get_bind]
    obtain ⟨hd, hd'⟩ | ⟨name, d, d', hd, hd', hreworded⟩ := h.alike.at? i
    · rw [hd, hd']
      exact ⟨rfl, h⟩
    rw [hd, hd']
    dsimp only
    rw [get_bind, get_bind, ← h.alike.size]
    have htexts : Comention text? d.text d'.text := hmention (h.defined hd) (h.defined' hd')
    refine (matches_foldlM_reworded (matches_expand_reworded budget) _ htexts t u h).bind
      fun out out' t₁ u₁ hfold hfold' _ h₁ ↦ ?_
    -- what is read are the expansions of the two texts
    obtain ⟨hadvances, hput⟩ := putIn_foldlM (expanding_expand budget) h.left hfold
    obtain ⟨hadvances', hput'⟩ := putIn_foldlM (expanding_expand budget) h.right hfold'
    have hout := hput.expands
    have hout' : Expands (texts u) d'.text out' := by
      rw [h.alike.size] at hput'
      exact hput'.expands
    have hanswers := hread (hexpand (h.defined hd) (h.defined' hd')
      (h.texts ▸ hout) (h.texts' ▸ hout')) name d.ident.pos d'.ident.pos
    cases he : read name d.ident.pos out <;> cases he' : read name d'.ident.pos out' <;>
      rw [he, he'] at hanswers
    case error.error => exact hanswers
    case ok.ok e e' =>
      obtain ⟨d₁, hd₁, htext⟩ := hadvances.texts.at? hd
      obtain ⟨d₁', hd₁', htext'⟩ := hadvances'.texts.at? hd'
      refine ⟨rfl, h₁.note hd₁ hd₁' ?_ ?_ hanswers⟩
      · rw [htext, text_of_read he, ← h.texts]
        exact hout
      · rw [htext', text_of_read he', ← h.texts']
        exact hout'
    all_goals exact hanswers.elim

theorem matches_ensure_reworded (i : Nat) :
    Matches (Coupled text? text?') Eq (ensure i) (ensure i) := by
  refine .get_bind fun t u h ↦ ?_
  obtain ⟨hd, hd'⟩ | ⟨name, d, d', hd, hd', hreworded⟩ := h.alike.at? i
  · rw [hd, hd']
    exact .pure _
  · rw [hd, hd']
    obtain ⟨he, he'⟩ | ⟨e, e', he, he', -⟩ := both_of_rel hreworded.expansion <;>
    · dsimp only
      rw [he, he']
      exact .ite Iff.rfl (matches_expand_reworded hmention hexpand hread budget i) (.pure _)

end

/-- Tables that are worded in another way and mention the same are expanded side by side. -/
theorem coupled_expandAll {t u : Table Define} (hread : ReadsAlike same)
    (hmention : MentionAlike (texts t) (texts u)) (hexpand : ExpandAlike same (texts t) (texts u))
    (h : t.Alike Define.Reworded u) (hnames : ∀ name ∈ t.names, IsName name) :
    Agree (Coupled (texts t) (texts u)) Eq (expandAll t) (expandAll u) := by
  have hstart : Coupled (texts t) (texts u) (t.map Define.reset) (u.map Define.reset) := by
    refine ⟨h.map fun _ _ hreworded ↦ ?_, consistent_reset hnames, consistent_reset ?_,
      texts_reset t, texts_reset u⟩
    · exact { hreworded with expansion := .none }
    · rwa [← h.names]
  rw [expandAll, modify_bind, modify_bind, get_bind, get_bind, ← hstart.alike.size]
  exact Matches.forM (matches_ensure_reworded hmention hexpand hread) _ _ _ hstart

theorem Reads.read_eq {e : Expansion} (h : e.Reads) (name : String) (pos : Position) :
    read name pos e.text = .ok e := by
  obtain ⟨ts, hlex, hparse⟩ := h
  rw [read, hlex]
  dsimp only
  rw [hparse]

/-- Tables that are worded in another way, if both can be expanded, are expanded to what is lowered
to the same. -/
theorem alike_expandAll {t t' u u' : Table Define} (hread : ReadsAlike same)
    (hexpand : ExpandAlike same (texts t) (texts u)) (h : t.Alike Define.Reworded u)
    (hnames : ∀ name ∈ t.names, IsName name) (ht : expandAll t = .ok () t')
    (hu : expandAll u = .ok () u') : t'.Alike Define.Reworded u' := by
  have hnames' : ∀ name ∈ u.names, IsName name := by rwa [← h.names]
  obtain ⟨htexts, -⟩ := expanded_expandAll hnames ht
  obtain ⟨htexts', -⟩ := expanded_expandAll hnames' hu
  refine ⟨by rw [htexts.names, htexts'.names, h.names], fun {i name d d'} hd hd' ↦ ?_⟩
  have hget := Table.get?_eq_some_iff.2 ⟨i, hd⟩
  have hget' := Table.get?_eq_some_iff.2 ⟨i, hd'⟩
  obtain ⟨old, hold, -⟩ := htexts.get? hget
  obtain ⟨old', hold', -⟩ := htexts'.get? hget'
  obtain ⟨e, he, hreads, hexpands⟩ := exists_expanded hnames ht hold
  obtain ⟨e', he', hreads', hexpands'⟩ := exists_expanded hnames' hu hold'
  cases hget.symm.trans he
  cases hget'.symm.trans he'
  have hreworded := h.get? name
  rw [hold, hold', Option.rel_some_some] at hreworded
  have halike := hread (hexpand (texts_of_get? hold) (texts_of_get? hold') hexpands hexpands') name
    old.ident.pos old'.ident.pos
  rw [hreads.read_eq, hreads'.read_eq] at halike
  exact { hreworded with expansion := .some halike }

/-- The definitions of two tables that are worded in another way are expanded to what is lowered to
the same, or expanding them fails for the same reason. -/
theorem agree_expandAll_reworded {t u : Table Define} (hread : ReadsAlike same)
    (hmention : MentionAlike (texts t) (texts u) ∨
      (∃ t', expandAll t = .ok () t') ∧ ∃ u', expandAll u = .ok () u')
    (hexpand : ExpandAlike same (texts t) (texts u)) (h : t.Alike Define.Reworded u)
    (hnames : ∀ name ∈ t.names, IsName name) :
    Agree (Table.Alike Define.Reworded) Eq (expandAll t) (expandAll u) := by
  obtain hmention | ⟨⟨t', ht⟩, u', hu⟩ := hmention
  · exact (coupled_expandAll hread hmention hexpand h hnames).imp fun hcoupled ↦ hcoupled.alike
  · rw [ht, hu]
    exact ⟨rfl, alike_expandAll hread hexpand h hnames ht hu⟩

/-! ## What comes of it

The tables at the end are related entry by entry, and none of their expansions mentions a
definition. -/

/-- The definitions that a text mentions are expanded to the same texts. -/
def SameExpansions (text? text?' : String → Option String) (text : String) : Prop :=
  ∀ w ∈ wordsOf text, ∀ {body body' out out'}, text? w = some body → text?' w = some body' →
    Expands text? body out → Expands text?' body' out' → out' = out

section

variable {t t' u u' : Table Define} (hnames : ∀ name ∈ t.names, IsName name)
  (ht : expandAll t = .ok () t')

include hnames ht

theorem rewording_expandAll (hident : ∀ {name d}, t.get? name = some d → d.ident.name = name)
    (h : t'.Alike Define.Reworded u') : Rewording t' u' := by
  obtain ⟨htexts, hconsistent, -⟩ := expanded_expandAll hnames ht
  refine ⟨h, hconsistent.isName, fun {name d} hd ↦ ?_, fun {name d e} hd he w hw ↦ ?_⟩
  · obtain ⟨old, hold, hreset⟩ := htexts.get? hd
    have hsame : old.ident = d.ident := (congrArg Define.ident hreset :)
    rw [← hsame, hident hold]
  · exact Option.map_eq_none_iff.1 ((hconsistent.expands hd he).words hw)

/-- A text whose definitions have the same expansions has them in the two tables. -/
theorem sameIn_expandAll (hu : expandAll u = .ok () u') (h : t.Alike Define.Reworded u)
    {text : String}
    (hsame : SameExpansions (texts t) (texts u) text) : SameIn t' u' text := by
  have hnames' : ∀ name ∈ u.names, IsName name := by rwa [← h.names]
  intro w hw
  obtain ⟨hd, hd'⟩ | ⟨d, d', hd, hd', -⟩ := both_of_rel (h.get? w)
  · rw [textOf?_of_none hnames ht (texts_of_none hd),
      textOf?_of_none hnames' hu (texts_of_none hd')]
  · obtain ⟨out, hout, hexpands⟩ := textOf?_of_some hnames ht (texts_of_get? hd)
    obtain ⟨out', hout', hexpands'⟩ := textOf?_of_some hnames' hu (texts_of_get? hd')
    rw [hout, hout', hsame w hw (texts_of_get? hd) (texts_of_get? hd') hexpands hexpands']

end

end Expansion

end CharacterScript
