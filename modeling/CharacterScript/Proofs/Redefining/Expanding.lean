import CharacterScript.Proofs.Relocation.Definitions

/-!
# Expanding with one definition more

A definition that no text mentions has no part in the expansions of the others. Whether it is new in
a table or stands for something else than before, what the others are expanded to stays the same
(`get?_expandAll_eq`). With a new one the others can also be expanded as before
(`exists_expandAll`): it comes last in the table and is not found in any text. With a changed one
this need not be so, because expanding what its old text mentioned has made chains shorter for those
behind it.

## Why not one statement for both

With a new definition at the end, expanding goes through the same places in the same order, and
comes to the new one when all others are done. So the runs can be compared step by step. With a
changed one they cannot: the search for what to put in meets other texts on its way, and memory is
filled in another order. There the results are compared, as expansions, which are unique.
-/

namespace CharacterScript

open Running

/-! ## The same expansions

An expansion depends on the texts of the words that are reached from it, and the name in question
is not reached. -/

/-- An expansion stays one when a word that is never met comes to mean something else. -/
theorem Expands.of_agree {text? text?' : String → Option String} {name text out : String}
    (h : Expands text? text out) (hagree : ∀ w ≠ name, text?' w = text? w)
    (hsilent : ∀ w body, text? w = some body → name ∉ wordsOf body) (htext : name ∉ wordsOf text) :
    Expands text?' text out := by
  induction h with
  | @intro text f hdefined hother ih =>
    have hsame : ∀ w ∈ wordsOf text, text?' w = text? w := fun w hw ↦
      hagree w fun heq ↦ htext (heq ▸ hw)
    refine .intro (fun w hw body hbody ↦ ?_) fun w hw hnone ↦ hother w hw (hsame w hw ▸ hnone)
    rw [hsame w hw] at hbody
    exact ih w hw body hbody (hsilent w body hbody)

namespace Expansion

variable {t t' u u' : Table Define} {name : String}

theorem Reads.ext {e e' : Expansion} (h : e.Reads) (h' : e'.Reads) (htext : e.text = e'.text) :
    e = e' := by
  obtain ⟨text, tree⟩ := e
  obtain ⟨text', tree'⟩ := e'
  dsimp only at htext
  subst htext
  obtain ⟨ts, hlex, hparse⟩ := h
  obtain ⟨ts', hlex', hparse'⟩ := h'
  cases hlex.symm.trans hlex'
  cases hparse.symm.trans hparse'
  rfl

/-- Two tables have the same under all names but this one, and no text of the first mentions it. -/
structure Beside (name : String) (t u : Table Define) : Prop where
  /-- The names of the first table are words. -/
  isName : ∀ other ∈ t.names, IsName other
  /-- So are those of the second. -/
  isName' : ∀ other ∈ u.names, IsName other
  /-- Under any other name is the same. -/
  same : ∀ other ≠ name, u.get? other = t.get? other
  /-- No text of the first table mentions the name. -/
  silent : ∀ {other d}, t.get? other = some d → name ∉ wordsOf d.text

/-- When the definitions of both tables could be expanded, they are the same but for the one. -/
theorem get?_expandAll_eq (h : Beside name t u) (ht : expandAll t = .ok () t')
    (hu : expandAll u = .ok () u') {other : String} (hne : other ≠ name) :
    u'.get? other = t'.get? other := by
  cases hd : t.get? other with
  | none =>
    have hnone : ∀ {t t' : Table Define}, expandAll t = .ok () t' → t.get? other = none →
        t'.get? other = none := by
      intro t t' ht hd
      have htexts := after_of_ok ht ▸ sameTexts_expandAll t
      rw [Option.eq_none_iff_forall_ne_some]
      intro d hd'
      obtain ⟨old, hold, -⟩ := htexts.get? hd'
      cases hd.symm.trans hold
    rw [hnone ht hd, hnone hu (h.same other hne ▸ hd)]
  | some d =>
    obtain ⟨e, he, hreads, hexpands⟩ := exists_expanded h.isName ht hd
    obtain ⟨e', he', hreads', hexpands'⟩ :=
      exists_expanded h.isName' hu ((h.same other hne).trans hd)
    have hsame : Expands (texts u) d.text e.text := by
      refine hexpands.of_agree (fun w hw ↦ ?_) (fun w body hbody ↦ ?_) (h.silent hd)
      · rw [texts, texts, h.same w hw]
      · obtain ⟨d', hd', rfl⟩ := Option.map_eq_some_iff.1 hbody
        exact h.silent hd'
    rw [he, he', hreads.ext hreads' (hsame.unique hexpands')]

/-! ## A new definition

Below the new place the tables stay equal. The lemmas carry that along with the one fact that
keeps it so: no text has the new name in it. -/

/-- A table with a definition more at its end, that no text and no expansion of the others
mentions. -/
structure Longer (name : String) (e : Define) (n : Nat) (t u : Table Define) : Prop where
  /-- The first table has `n` definitions. -/
  size : t.size = n
  /-- The second has one more. -/
  size' : u.size = n + 1
  /-- The others are the same. -/
  at? : ∀ i < n, u.at? i = t.at? i
  /-- The one more is the last, under this name. -/
  last : u.at? n = some (name, e)
  /-- The names are words. -/
  isName : ∀ {i other d}, t.at? i = some (other, d) → IsName other
  /-- No text mentions the one more. -/
  text : ∀ {i other d}, t.at? i = some (other, d) → name ∉ wordsOf d.text
  /-- No expansion mentions it. -/
  expansion : ∀ {i other d x}, t.at? i = some (other, d) → d.expansion = some x →
    name ∉ wordsOf x.text

/-- A text without the name. -/
def Without (name : String) (text text' : String) : Prop :=
  text = text' ∧ name ∉ wordsOf text

section

variable {e : Define} {n : Nat} {text : String}

theorem Longer.note (h : Longer name e n t u) {i : Nat} (hi : i < n) {x : Expansion}
    (hx : name ∉ wordsOf x.text) :
    Longer name e n (t.modifyAt i fun d ↦ { d with expansion := some x })
      (u.modifyAt i fun d ↦ { d with expansion := some x }) := by
  have hat : ∀ {j other d}, (t.modifyAt i fun d ↦ { d with expansion := some x }).at? j
      = some (other, d) → ∃ old, t.at? j = some (other, old) ∧ d.text = old.text ∧
        (d.expansion = some x ∨ d.expansion = old.expansion) := by
    intro j other d hd
    rw [Table.at?_modifyAt] at hd
    split at hd
    · obtain ⟨⟨_, old⟩, hold, heq⟩ := Option.map_eq_some_iff.1 hd
      cases heq
      exact ⟨old, hold, rfl, .inl rfl⟩
    · exact ⟨d, hd, rfl, .inr rfl⟩
  refine ⟨?_, ?_, fun j hj ↦ ?_, ?_, fun hd ↦ ?_, fun hd ↦ ?_, fun hd hexpansion ↦ ?_⟩
  · rw [← h.size]
    simp [Table.size, Table.modifyAt]
  · rw [← h.size']
    simp [Table.size, Table.modifyAt]
  · rw [Table.at?_modifyAt, Table.at?_modifyAt, h.at? j hj]
  · rw [Table.at?_modifyAt, if_neg hi.ne, h.last]
  · obtain ⟨old, hold, -⟩ := hat hd
    exact h.isName hold
  · obtain ⟨old, hold, htext, -⟩ := hat hd
    exact htext ▸ h.text hold
  · obtain ⟨old, hold, -, hnew | hkept⟩ := hat hd
    · cases hnew.symm.trans hexpansion
      exact hx
    · exact h.expansion hold (hkept ▸ hexpansion)

/-- Steps that agree on the places that both tables have. -/
def MatchesBelow (name : String) (e : Define) (n : Nat)
    (x : Nat → EStateM Problem (Table Define) Unit) : Prop :=
  ∀ i < n, Matches (Longer name e n) Eq (x i) (x i)

variable {expandOther : Nat → EStateM Problem (Table Define) Unit}

theorem agree_substitute_longer (hother : MatchesBelow name e n expandOther) {i : Nat} (hi : i < n)
    (h : Longer name e n t u) (htext : name ∉ wordsOf text) :
    Agree (Longer name e n) (Without name) (substitute expandOther text i t)
      (substitute expandOther text i u) := by
  have hput : ∀ {t u : Table Define} {other x}, Longer name e n t u →
      (t.at? i).bind (·.2.expansion) = some x → IsName other →
      name ∉ wordsOf (replaceWord text other x.text) := by
    intro t u other x h hx hisName hw
    obtain ⟨⟨_, d⟩, hd, hexpansion⟩ := Option.bind_eq_some_iff.1 hx
    obtain hnew | ⟨hold, -⟩ := mem_wordsOf_replaceWord hisName hw
    · exact h.expansion hd hexpansion hnew
    · exact htext hold
  rw [substitute, get_bind, get_bind, h.at? i hi]
  cases hd : t.at? i with
  | none => exact ⟨⟨rfl, htext⟩, h⟩
  | some entry =>
    obtain ⟨other, d⟩ := entry
    have hisName : IsName other := h.isName hd
    dsimp only
    split
    · split
      · refine (hother i hi t u h).bind fun _ _ t u _ _ _ h' ↦ ?_
        rw [get_bind, get_bind, h'.at? i hi]
        cases hx : (t.at? i).bind (·.2.expansion) with
        | none => exact ⟨⟨rfl, htext⟩, h'⟩
        | some x => exact ⟨⟨rfl, hput h' hx hisName⟩, h'⟩
      · rw [get_bind, get_bind, h.at? i hi]
        cases hx : (t.at? i).bind (·.2.expansion) with
        | none => exact ⟨⟨rfl, htext⟩, h⟩
        | some x => exact ⟨⟨rfl, hput h hx hisName⟩, h⟩
    · exact ⟨⟨rfl, htext⟩, h⟩

theorem agree_foldlM_longer (hother : MatchesBelow name e n expandOther) {places : List Nat}
    (hplaces : ∀ i ∈ places, i < n) (h : Longer name e n t u) (htext : name ∉ wordsOf text) :
    Agree (Longer name e n) (Without name) (places.foldlM (substitute expandOther) text t)
      (places.foldlM (substitute expandOther) text u) := by
  induction places generalizing text t u with
  | nil => exact ⟨⟨rfl, htext⟩, h⟩
  | cons i places ih =>
    obtain ⟨hi, hplaces⟩ := List.forall_mem_cons.1 hplaces
    rw [List.foldlM_cons]
    refine (agree_substitute_longer hother hi h htext).bind fun mid mid' t u _ _ hmid h ↦ ?_
    obtain ⟨rfl, hmid⟩ := hmid
    exact ih hplaces h hmid

theorem substitute_of_absent {i : Nat} (h : ∀ other d, t.at? i = some (other, d) →
    containsWord text other = false) : substitute expandOther text i t = .ok text t := by
  rw [substitute, get_bind]
  cases hd : t.at? i with
  | none => rfl
  | some entry =>
    obtain ⟨other, d⟩ := entry
    dsimp only
    rw [h other d hd]
    rfl

theorem matchesBelow_expand (hname : IsName name) (budget : Nat) :
    MatchesBelow name e n (expand budget) := by
  induction budget with
  | zero =>
    intro i hi t u h
    rw [expand, get_bind, get_bind, h.at? i hi]
    cases t.at? i with
    | none => exact ⟨rfl, h⟩
    | some entry => exact (rfl : Problem.code _ = _)
  | succ budget ih =>
    intro i hi t u h
    rw [expand, get_bind, get_bind, h.at? i hi]
    cases hd : t.at? i with
    | none => exact ⟨rfl, h⟩
    | some entry =>
      obtain ⟨other, d⟩ := entry
      dsimp only
      -- the additional definition comes last and is not found in what the text has become by then
      have hlast : Agree (Longer name e n) (Without name)
          ((List.range t.size).foldlM (substitute (expand budget)) d.text t)
          ((List.range u.size).foldlM (substitute (expand budget)) d.text u) := by
        rw [h.size, h.size', List.range_succ, List.foldlM_append]
        have hfold := agree_foldlM_longer ih (fun i ↦ List.mem_range.1) h (h.text hd)
        cases hx : (List.range n).foldlM (substitute (expand budget)) d.text t with
        | error problem t₁ =>
          obtain ⟨problem', u₁, hy, hcode⟩ := hfold.error_of_error hx
          rw [bind_of_error hy]
          exact hcode
        | ok out t₁ =>
          obtain ⟨_, u₁, hy, ⟨rfl, hout⟩, h₁⟩ := hfold.ok_of_ok hx
          have habsent : ∀ other d, u₁.at? n = some (other, d) →
              containsWord out other = false := by
            intro other d hd
            cases h₁.last.symm.trans hd
            rw [← Bool.not_eq_true, containsWord_iff hname]
            exact hout
          rw [bind_of_ok hy, List.foldlM_cons, bind_of_ok (substitute_of_absent habsent)]
          exact ⟨⟨rfl, hout⟩, h₁⟩
      rw [get_bind, get_bind]
      refine hlast.bind fun out _ t u _ _ hout h ↦ ?_
      obtain ⟨rfl, hout⟩ := hout
      cases hread : read other d.ident.pos out with
      | error problem => exact (rfl : Problem.code _ = _)
      | ok x =>
        refine ⟨rfl, h.note hi ?_⟩
        rw [text_of_read hread]
        exact hout

theorem matchesBelow_ensure (hname : IsName name) : MatchesBelow name e n ensure := by
  intro i hi t u h
  rw [ensure, get_bind, get_bind, h.at? i hi]
  cases t.at? i with
  | none => exact ⟨rfl, h⟩
  | some entry =>
    dsimp only
    split
    · exact matchesBelow_expand hname budget i hi t u h
    · exact ⟨rfl, h⟩

theorem agree_forM_longer (hname : IsName name) {places : List Nat} (hplaces : ∀ i ∈ places, i < n)
    (h : Longer name e n t u) :
    Agree (Longer name e n) Eq (places.forM ensure t) (places.forM ensure u) := by
  induction places generalizing t u with
  | nil => exact ⟨rfl, h⟩
  | cons i places ih =>
    obtain ⟨hi, hplaces⟩ := List.forall_mem_cons.1 hplaces
    rw [List.forM_eq_forM, List.forM_cons]
    exact (matchesBelow_ensure hname i hi t u h).bind fun _ _ t u _ _ _ h ↦ ih hplaces h

/-- A text that mentions nothing and reads is its own expansion. -/
theorem exists_ensure {i : Nat} {d : Define} (hd : t.at? i = some (name, d))
    (habsent : ∀ {j other d'}, t.at? j = some (other, d') → containsWord d.text other = false)
    {x : Expansion} (hread : read name d.ident.pos d.text = .ok x) :
    ∃ t', ensure i t = .ok () t' := by
  have hfold : ∀ places : List Nat,
      places.foldlM (substitute (expand 99)) d.text t = .ok d.text t := by
    intro places
    induction places with
    | nil => rfl
    | cons j places ih =>
      rw [List.foldlM_cons, bind_of_ok (substitute_of_absent fun other d' ↦ habsent)]
      exact ih
  rw [ensure, get_bind, hd]
  dsimp only
  split
  · rw [budget, expand, get_bind, hd]
    dsimp only
    rw [get_bind, bind_of_ok (hfold _), hread]
    exact ⟨_, rfl⟩
  · exact ⟨t, rfl⟩

end

/-- With a new definition that no text mentions, and that mentions none, all definitions can be
expanded if they could without it. -/
theorem exists_expandAll (hnames : ∀ other ∈ t.names, IsName other) (hname : IsName name)
    (hnew : t.get? name = none) (hsilent : ∀ {other d}, t.get? other = some d →
    name ∉ wordsOf d.text)
    {e : Define} (habsent : ∀ other ∈ name :: t.names, containsWord e.text other = false)
    {x : Expansion} (hread : read name e.ident.pos e.text = .ok x) (h : expandAll t = .ok () t') :
    ∃ u', expandAll (t.insert name e) = .ok () u' := by
  have hindex : t.indexOf? name = none := Table.get?_eq_none_iff.1 hnew
  have hlonger : Longer name e.reset t.size (t.map Define.reset)
      ((t.insert name e).map Define.reset) := by
    have hat : ∀ {i other d}, (t.map Define.reset).at? i = some (other, d) →
        ∃ old, t.get? other = some old ∧ d = old.reset := by
      intro i other d hd
      rw [Table.at?_map] at hd
      obtain ⟨⟨_, old⟩, hold, heq⟩ := Option.map_eq_some_iff.1 hd
      cases heq
      exact ⟨old, Table.get?_eq_some_iff.2 ⟨i, hold⟩, rfl⟩
    refine ⟨?_, ?_, fun i hi ↦ ?_, ?_, fun hd ↦ ?_, fun hd ↦ ?_, fun hd hx ↦ ?_⟩
    · simp [Table.size, Table.map]
    · simp [Table.size, Table.map, Table.entries_insert_of_none e hindex]
    · rw [Table.at?_map, Table.at?_map, Table.at?_insert_of_none e hindex, if_neg hi.ne]
    · rw [Table.at?_map, Table.at?_insert_of_none e hindex, if_pos rfl]
      rfl
    · obtain ⟨old, hold, -⟩ := hat hd
      exact hnames _ (Table.mem_names_iff.2 ⟨old, hold⟩)
    · obtain ⟨old, hold, rfl⟩ := hat hd
      show name ∉ wordsOf old.text
      exact hsilent hold
    · obtain ⟨old, -, rfl⟩ := hat hd
      cases hx
  have hkept := (expanded_expandAll hnames h).1.names
  -- the old definitions are expanded as before, and the new one comes last
  rw [expandAll, modify_bind, get_bind, hlonger.size] at h
  rw [expandAll, modify_bind, get_bind, hlonger.size', List.range_succ, List.forM_eq_forM,
    List.forM_append]
  obtain ⟨_, u₁, hu, -, h₁⟩ :=
    (agree_forM_longer hname (fun i ↦ List.mem_range.1) hlonger).ok_of_ok h
  rw [List.forM_eq_forM] at hu
  have hafter : ∀ {j other d}, u₁.at? j = some (other, d) → containsWord e.text other = false := by
    intro j other d hd
    refine habsent other ?_
    have hj : j < t.size + 1 := h₁.size' ▸ (Array.getElem?_eq_some_iff.1 hd).1
    obtain hj | rfl := Nat.lt_succ_iff_lt_or_eq.1 hj
    · rw [h₁.at? j hj] at hd
      exact List.mem_cons_of_mem _
        (hkept ▸ Table.mem_names_iff.2 ⟨d, Table.get?_eq_some_iff.2 ⟨j, hd⟩⟩)
    · cases h₁.last.symm.trans hd
      exact List.mem_cons_self
  obtain ⟨u', hu'⟩ := exists_ensure h₁.last hafter hread
  refine ⟨u', ?_⟩
  rw [bind_of_ok hu, List.forM_cons, bind_of_ok hu']
  rfl

end Expansion

end CharacterScript
