import CharacterScript.Proofs.Reachable
import CharacterScript.Proofs.Words

/-!
# Expanding as substitution

What a text expands to is said once and without an order by `Expands`: all words that are defined
are replaced at the same time, each by what its own text expands to. A cycle has no expansion, and a
text never has two (`Expands.unique`).

## One after the other

The definitions are put in one after the other, in the order of the table, into a text that changes
on the way. So between two of them a text is only known to be expanded in part: `PartlyExpands`. No
replacement gets in the way of the next one, because what is put in mentions no definition at all
(`Expands.words`) and never joins with what stands next to it. Nothing is missed either: a name that
was looked for once is gone for good (`PutIn`). Where the expansion of a definition comes from, now
or from memory, then no longer matters: all that are kept in a table are expansions (`Consistent`).

## Words stay words

What keeps the order from mattering is that a text is cut into words in one way, and that an
expansion is put in between characters which are none of a word. So a word of the result is a word
of the text that was left alone or a word of something that was put in, never one made of both.
All the rest is bookkeeping about which names have been looked for.
-/

namespace CharacterScript

open Running

/-! ## Texts with definitions put in

The relation is inductive, so a circle has no proof. That a text has at most one expansion makes
it a specification. -/

section

variable {text? : String → Option String} {text out name w : String}

/-- `Expands text? text out`: every word of `text` that is defined has been replaced by what its own
text expands to, and the other words have been kept. -/
inductive Expands (text? : String → Option String) : String → String → Prop
  | intro {text : String} {f : String → String}
      (hdefined : ∀ w ∈ wordsOf text, ∀ body, text? w = some body → Expands text? body (f w))
      (hother : ∀ w ∈ wordsOf text, text? w = none → f w = w) :
      Expands text? text (mapWords f text)

/-- An expansion mentions nothing that is defined. -/
theorem Expands.words (h : Expands text? text out) (hw : w ∈ wordsOf out) : text? w = none := by
  induction h generalizing w with
  | @intro text f hdefined hother ih =>
    obtain ⟨u, hu, hwu⟩ := mem_wordsOf_mapWords.1 hw
    cases hbody : text? u with
    | some body => exact ih u hu body hbody hwu
    | none =>
      rw [hother u hu hbody, (isName_of_mem_wordsOf hu).mem_wordsOf_iff] at hwu
      rw [hwu, hbody]

theorem Expands.unique {out' : String} (h : Expands text? text out)
    (h' : Expands text? text out') : out = out' := by
  induction h generalizing out' with
  | intro hdefined hother ih =>
    cases h' with
    | intro hdefined' hother' =>
      refine mapWords_congr fun w hw ↦ ?_
      cases hbody : text? w with
      | some body => exact ih w hw body hbody (hdefined' w hw body hbody)
      | none => rw [hother w hw hbody, hother' w hw hbody]

/-- A text that mentions nothing that is defined is expanded to itself. -/
theorem Expands.eq_self (h : Expands text? text out) (hwords : ∀ w ∈ wordsOf text, text? w = none) :
    out = text := by
  cases h with
  | intro _ hother => exact mapWords_eq_self fun w hw ↦ hother w hw (hwords w hw)

/-- Some of the words have been replaced by what their texts expand to. -/
def PartlyExpands (text? : String → Option String) (text out : String) : Prop :=
  ∃ f, out = mapWords f text ∧
    ∀ w ∈ wordsOf text, f w = w ∨ ∃ body, text? w = some body ∧ Expands text? body (f w)

theorem PartlyExpands.refl (text : String) : PartlyExpands text? text text :=
  ⟨id, (mapWords_eq_self fun _ _ ↦ rfl).symm, fun _ _ ↦ .inl rfl⟩

theorem PartlyExpands.replaceWord {body e : String} (h : PartlyExpands text? text out)
    (hname : IsName name) (hbody : text? name = some body) (he : Expands text? body e) :
    PartlyExpands text? text (replaceWord out name e) := by
  obtain ⟨f, rfl, hf⟩ := h
  refine ⟨fun w ↦ mapWords (fun w ↦ if w = name then e else w) (f w), ?_, fun w hw ↦ ?_⟩
  · rw [replaceWord_eq_mapWords hname, mapWords_mapWords]
  obtain heq | ⟨old, hold, hexpands⟩ := hf w hw <;> dsimp only
  · rw [heq, (isName_of_mem_wordsOf hw).mapWords]
    by_cases hwname : w = name
    · rw [if_pos hwname, hwname]
      exact .inr ⟨body, hbody, he⟩
    · exact .inl (if_neg hwname)
  -- the name does not occur in what was put in before
  · have hkept : ∀ u ∈ wordsOf (f w), (if u = name then e else u) = u := fun u hu ↦
      if_neg fun heq : u = name ↦ nomatch (hexpands.words (heq ▸ hu)).symm.trans hbody
    rw [mapWords_eq_self hkept]
    exact .inr ⟨old, hold, hexpands⟩

/-- It is expanded when nothing is left to replace. -/
theorem PartlyExpands.expands (h : PartlyExpands text? text out)
    (hwords : ∀ w ∈ wordsOf out, text? w = none) : Expands text? text out := by
  obtain ⟨f, rfl, hf⟩ := h
  refine .intro (fun w hw body hbody ↦ ?_) fun w hw hnone ↦ ?_
  · obtain heq | ⟨body', hbody', hexpands⟩ := hf w hw
    · have hword : w ∈ wordsOf (f w) := by
        rw [heq]
        exact (isName_of_mem_wordsOf hw).mem_wordsOf_iff.2 rfl
      exact nomatch (hwords w (mem_wordsOf_mapWords.2 ⟨w, hw, hword⟩)).symm.trans hbody
    · obtain rfl : body' = body := Option.some.inj (hbody'.symm.trans hbody)
      exact hexpands
  · obtain heq | ⟨body, hbody, -⟩ := hf w hw
    · exact heq
    · exact nomatch hnone.symm.trans hbody

theorem mem_wordsOf_replaceWord {e : String} (hname : IsName name)
    (hw : w ∈ wordsOf (replaceWord text name e)) :
    w ∈ wordsOf e ∨ w ∈ wordsOf text ∧ w ≠ name := by
  rw [replaceWord_eq_mapWords hname, mem_wordsOf_mapWords] at hw
  obtain ⟨u, hu, hwu⟩ := hw
  split at hwu
  next => exact .inl hwu
  next hne =>
    obtain rfl := (isName_of_mem_wordsOf hu).mem_wordsOf_iff.1 hwu
    exact .inr ⟨hu, hne⟩

end

namespace Expansion

variable {t t' u : Table Define}

/-! ## Tables that differ in their expansions -/

theorem SameTexts.indexOf? (h : SameTexts t t') (name : String) :
    t'.indexOf? name = t.indexOf? name := by
  rw [← Table.indexOf?_map t' Define.reset, h, Table.indexOf?_map]

theorem SameTexts.names (h : SameTexts t t') : t'.names = t.names := by
  rw [← Table.names_map t' Define.reset, h, Table.names_map]

theorem SameTexts.at? (h : SameTexts t t') {i : Nat} {name : String} {d : Define}
    (hd : t.at? i = some (name, d)) :
    ∃ d', t'.at? i = some (name, d') ∧ d'.text = d.text := by
  have hat : (t'.map Define.reset).at? i = (t.map Define.reset).at? i := by rw [h]
  rw [Table.at?_map, Table.at?_map, hd, Option.map_some, Option.map_eq_some_iff] at hat
  obtain ⟨⟨name', d'⟩, hd', heq⟩ := hat
  obtain ⟨rfl, hreset⟩ := Prod.mk.inj heq
  exact ⟨d', hd', (Define.mk.inj hreset).2.2.2.1⟩

/-- The text a name stands for. -/
def texts (t : Table Define) (name : String) : Option String :=
  (t.get? name).map (·.text)

theorem texts_of_get? {name : String} {d : Define} (hd : t.get? name = some d) :
    texts t name = some d.text := by
  rw [texts, hd]
  rfl

theorem texts_of_none {name : String} (hd : t.get? name = none) : texts t name = none := by
  rw [texts, hd]
  rfl

theorem texts_reset (t : Table Define) : texts (t.map Define.reset) = texts t := by
  funext name
  rw [texts, texts, Table.get?_map, Option.map_map]
  rfl

theorem SameTexts.texts (h : SameTexts t t') : texts t' = texts t := by
  rw [← texts_reset t', h, texts_reset]

/-! ## One step

A step looks for one name in the text and puts its expansion in for all of its places, or finds
none. -/

/-- All expansions in the table are expansions of their texts, and its names are words. -/
structure Consistent (t : Table Define) : Prop where
  /-- Definitions are found under words. -/
  isName : ∀ name ∈ t.names, IsName name
  /-- An expansion is what the text comes to when all names in it are put in. -/
  expands : ∀ {name d e}, t.get? name = some d → d.expansion = some e →
    Expands (texts t) d.text e.text

/-- A table is consistent when its expansions have been forgotten. -/
theorem consistent_reset (hnames : ∀ name ∈ t.names, IsName name) :
    Consistent (t.map Define.reset) := by
  refine ⟨by rwa [Table.names_map], fun {name d e} hd he ↦ ?_⟩
  rw [Table.get?_map] at hd
  obtain ⟨d, -, rfl⟩ := Option.map_eq_some_iff.1 hd
  cases he

/-- The definition at a place, if there is one, is expanded. -/
def Expanded (t : Table Define) (i : Nat) : Prop :=
  ∀ {name d}, t.at? i = some (name, d) → d.expansion ≠ none

theorem expanded_of_none {i : Nat} (hd : t.at? i = none) : Expanded t i :=
  fun hd' ↦ nomatch hd.symm.trans hd'

theorem expanded_of_at? {i : Nat} {name : String} {d : Define} (hd : t.at? i = some (name, d))
    (h : d.expansion ≠ none) : Expanded t i := by
  intro name' d' hd'
  obtain ⟨rfl, rfl⟩ := Prod.mk.inj (Option.some.inj (hd.symm.trans hd'))
  exact h

/-- What may happen to a consistent table. -/
structure Advances (t t' : Table Define) : Prop where
  /-- The texts stay as they were written. -/
  texts : SameTexts t t'
  /-- The expansions added are right as well. -/
  consistent : Consistent t'
  /-- No expansion is lost. -/
  kept : ∀ {i}, Expanded t i → Expanded t' i

theorem Advances.refl (h : Consistent t) : Advances t t :=
  ⟨rfl, h, id⟩

theorem Advances.trans (h : Advances t t') (h' : Advances t' u) : Advances t u :=
  ⟨h.texts.trans h'.texts, h'.consistent, fun hi ↦ h'.kept (h.kept hi)⟩

/-- A step that expands the definition at a place when it succeeds. -/
def Expanding (x : Nat → EStateM Problem (Table Define) Unit) : Prop :=
  ∀ {i t t'}, Consistent t → x i t = .ok () t' → Advances t t' ∧ Expanded t' i

/-- The definitions at some places have been put into a text. -/
structure PutIn (t : Table Define) (places : List Nat) (text out : String) : Prop where
  /-- What has been put in belongs there. -/
  partly : ∀ {start}, PartlyExpands (texts t) start text → PartlyExpands (texts t) start out
  /-- A name that is still there was there before and has not been looked for. -/
  left : ∀ {w}, w ∈ wordsOf out → texts t w ≠ none →
    w ∈ wordsOf text ∧ ∀ i ∈ places, t.indexOf? w ≠ some i

section

variable {text out : String}

theorem PutIn.nil (t : Table Define) (text : String) : PutIn t [] text text :=
  ⟨id, fun hw _ ↦ ⟨hw, nofun⟩⟩

theorem PutIn.cons {i : Nat} {places : List Nat} {mid : String} (h : PutIn t [i] text mid)
    (htexts : SameTexts t t') (h' : PutIn t' places mid out) : PutIn t (i :: places) text out := by
  refine ⟨fun hstart ↦ ?_, fun hw hdefined ↦ ?_⟩
  · rw [← htexts.texts]
    exact h'.partly (htexts.texts ▸ h.partly hstart)
  · obtain ⟨hmid, hplaces⟩ := h'.left hw (htexts.texts ▸ hdefined)
    obtain ⟨htext, hi⟩ := h.left hmid hdefined
    refine ⟨htext, List.forall_mem_cons.2 ⟨hi i List.mem_cons_self, fun j hj ↦ ?_⟩⟩
    rw [← htexts.indexOf?]
    exact hplaces j hj

/-- The words that are the name at a place have been replaced by what its text expands to. -/
theorem PutIn.replaceWord {i : Nat} {name body e : String} (hname : IsName name)
    (hi : t.indexOf? name = some i) (hbody : texts t name = some body)
    (he : Expands (texts t) body e) : PutIn t [i] text (replaceWord text name e) := by
  refine ⟨fun hstart ↦ hstart.replaceWord hname hbody he, fun {w} hw hdefined ↦ ?_⟩
  obtain hnew | ⟨hold, hne⟩ := mem_wordsOf_replaceWord hname hw
  · exact absurd (he.words hnew) hdefined
  · refine ⟨hold, List.forall_mem_singleton.2 fun hw ↦ hne ?_⟩
    rw [Table.indexOf?_eq_some_iff_names] at hi hw
    exact Option.some.inj (hw.symm.trans hi)

/-- With all definitions put in a text is expanded. -/
theorem PutIn.expands (h : PutIn t (List.range t.size) text out) : Expands (texts t) text out := by
  refine (h.partly (.refl text)).expands fun w hw ↦ ?_
  by_contra hdefined
  obtain ⟨body, hbody⟩ := Option.ne_none_iff_exists'.1 hdefined
  obtain ⟨d, hd, -⟩ := Option.map_eq_some_iff.1 hbody
  obtain ⟨i, hi, hat⟩ := Table.indexOf?_of_get? hd
  exact (h.left hw hdefined).2 i (List.mem_range.2 (Array.getElem?_eq_some_iff.1 hat).1) hi

/-- What putting one definition into a text does. -/
theorem substitute_eq_ok {expandOther : Nat → EStateM Problem (Table Define) Unit} {i : Nat}
    (h : substitute expandOther text i t = .ok out t') :
    (t' = t ∧ out = text ∧ ∀ name d, t.at? i = some (name, d) → containsWord text name = false) ∨
    ∃ name d, t.at? i = some (name, d) ∧ containsWord text name = true ∧
      (if d.expansion.isNone then expandOther i t = .ok () t' else t' = t) ∧
      out = (((t'.at? i).bind (·.2.expansion)).map (replaceWord text name ·.text)).getD text := by
  rw [substitute, get_bind] at h
  cases hd : t.at? i with
  | none =>
    rw [hd] at h
    obtain ⟨rfl, rfl⟩ := pure_eq_ok.1 h
    exact .inl ⟨rfl, rfl, fun _ _ hnone ↦ absurd hnone.symm (Option.some_ne_none _)⟩
  | some entry =>
    obtain ⟨name, d⟩ := entry
    rw [hd] at h
    dsimp only at h
    split at h
    next hcontains =>
      refine .inr ⟨name, d, rfl, hcontains, ?_⟩
      split at h
      next hexpansion =>
        obtain ⟨_, t₁, hother, h⟩ := bind_eq_ok.1 h
        rw [get_bind] at h
        rw [if_pos hexpansion]
        cases he : (t₁.at? i).bind (·.2.expansion) <;>
        · rw [he] at h
          obtain ⟨rfl, rfl⟩ := pure_eq_ok.1 h
          exact ⟨hother, by rw [he]; rfl⟩
      next hexpansion =>
        rw [get_bind] at h
        rw [if_neg hexpansion]
        cases he : (t.at? i).bind (·.2.expansion) <;>
        · rw [he] at h
          obtain ⟨rfl, rfl⟩ := pure_eq_ok.1 h
          exact ⟨rfl, by rw [he]; rfl⟩
    next hcontains =>
      obtain ⟨rfl, rfl⟩ := pure_eq_ok.1 h
      refine .inl ⟨rfl, rfl, fun name' d' hd' ↦ ?_⟩
      obtain ⟨rfl, rfl⟩ := Prod.mk.inj (Option.some.inj hd')
      exact Bool.eq_false_iff.2 hcontains

theorem putIn_substitute {expandOther : Nat → EStateM Problem (Table Define) Unit} {i : Nat}
    (hother : Expanding expandOther) (ht : Consistent t)
    (h : substitute expandOther text i t = .ok out t') : Advances t t' ∧ PutIn t [i] text out := by
  obtain ⟨rfl, rfl, habsent⟩ | ⟨name, d, hd, -, hexpanded, rfl⟩ := substitute_eq_ok h
  · refine ⟨.refl ht, id, fun {w} hw _ ↦ ⟨hw, List.forall_mem_singleton.2 fun hi ↦ ?_⟩⟩
    obtain ⟨d, hd⟩ := Table.indexOf?_eq_some_iff.1 hi
    have hcontains := (containsWord_iff (isName_of_mem_wordsOf hw)).2 hw
    exact nomatch hcontains.symm.trans (habsent w d hd)
  -- it has an expansion in the end, made now or before
  · obtain ⟨hadvances, hi⟩ : Advances t t' ∧ Expanded t' i := by
      split at hexpanded
      next => exact hother ht hexpanded
      next hsome =>
        rw [hexpanded]
        exact ⟨.refl ht, expanded_of_at? hd (by simpa using hsome)⟩
    obtain ⟨d', hd', -⟩ := hadvances.texts.at? hd
    obtain ⟨e, he⟩ := Option.ne_none_iff_exists'.1 (hi hd')
    have hget := Table.get?_eq_some_iff.2 ⟨i, hd'⟩
    have hname : IsName name :=
      hadvances.consistent.isName name (Table.mem_names_iff.2 ⟨d', hget⟩)
    have hbody : texts t name = some d'.text := by
      rw [← hadvances.texts.texts, texts, hget]
      rfl
    have hexpands : Expands (texts t) d'.text e.text :=
      hadvances.texts.texts ▸ hadvances.consistent.expands hget he
    rw [hd', Option.bind_some, he]
    exact ⟨hadvances, .replaceWord hname (Table.indexOf?_eq_some_iff.2 ⟨d, hd⟩) hbody hexpands⟩

theorem putIn_foldlM {expandOther : Nat → EStateM Problem (Table Define) Unit}
    (hother : Expanding expandOther) {places : List Nat} (ht : Consistent t)
    (h : places.foldlM (substitute expandOther) text t = .ok out t') :
    Advances t t' ∧ PutIn t places text out := by
  induction places generalizing text t with
  | nil =>
    obtain ⟨rfl, rfl⟩ := pure_eq_ok.1 h
    exact ⟨.refl ht, .nil t text⟩
  | cons i places ih =>
    rw [List.foldlM_cons] at h
    obtain ⟨mid, t₁, hfirst, h⟩ := bind_eq_ok.1 h
    obtain ⟨hadvances, hput⟩ := putIn_substitute hother ht hfirst
    obtain ⟨hadvances', hput'⟩ := ih hadvances.consistent h
    exact ⟨hadvances.trans hadvances', hput.cons hadvances.texts hput'⟩

end

/-! ## Expanding -/

theorem text_of_read {name text : String} {pos : Position} {e : Expansion}
    (h : read name pos text = .ok e) : e.text = text := by
  rw [read] at h
  split at h
  next => exact nomatch h
  next =>
    split at h
    next => exact nomatch h
    next =>
      cases h
      rfl

/-- Keeping the expansion of a definition. -/
theorem advances_modifyAt {i : Nat} {name : String} {d : Define} {e : Expansion}
    (ht : Consistent t) (hd : t.at? i = some (name, d)) (he : Expands (texts t) d.text e.text)
    (h : t' = t.modifyAt i fun d ↦ { d with expansion := some e }) :
    Advances t t' ∧ Expanded t' i := by
  have htexts : SameTexts t t' := by
    rw [h]
    exact Table.map_modifyAt t i fun _ ↦ rfl
  have hplace : t.indexOf? name = some i := Table.indexOf?_eq_some_iff.2 ⟨d, hd⟩
  have hi : Expanded t' i := by
    intro name' d' hd'
    rw [h, Table.at?_modifyAt, if_pos rfl, hd] at hd'
    cases hd'
    exact nofun
  have hkept : ∀ j, Expanded t j → Expanded t' j := by
    intro j hj name' d' hd'
    by_cases hij : i = j
    · exact hi (hij ▸ hd')
    · rw [h, Table.at?_modifyAt, if_neg hij] at hd'
      exact hj hd'
  refine ⟨⟨htexts, ⟨htexts.names ▸ ht.isName, fun {name' d' e'} hd' he' ↦ ?_⟩, hkept _⟩, hi⟩
  rw [htexts.texts]
  rw [h, Table.get?_modifyAt _ hplace] at hd'
  split at hd'
  next heq =>
    rw [heq, Table.get?_eq_some_iff.2 ⟨i, hd⟩] at hd'
    cases hd'
    cases he'
    exact he
  next => exact ht.expands hd' he'

theorem expanding_expand : ∀ budget : Nat, Expanding (expand budget)
  | 0, i, t, t', ht, h => by
    rw [expand, get_bind] at h
    cases hd : t.at? i with
    | none =>
      rw [hd] at h
      obtain ⟨-, rfl⟩ := pure_eq_ok.1 h
      exact ⟨.refl ht, expanded_of_none hd⟩
    | some entry =>
      rw [hd] at h
      exact absurd h throw_ne_ok
  | budget + 1, i, t, t', ht, h => by
    rw [expand, get_bind] at h
    cases hd : t.at? i with
    | none =>
      rw [hd] at h
      obtain ⟨-, rfl⟩ := pure_eq_ok.1 h
      exact ⟨.refl ht, expanded_of_none hd⟩
    | some entry =>
      obtain ⟨name, d⟩ := entry
      rw [hd] at h
      dsimp only at h
      rw [get_bind] at h
      obtain ⟨out, t₁, hfold, h⟩ := bind_eq_ok.1 h
      obtain ⟨hadvances, hput⟩ := putIn_foldlM (expanding_expand budget) ht hfold
      cases hread : read name d.ident.pos out with
      | error e =>
        rw [hread] at h
        exact absurd h throw_ne_ok
      | ok e =>
        rw [hread] at h
        cases h
        obtain ⟨d₁, hd₁, htext⟩ := hadvances.texts.at? hd
        have hexpands : Expands (texts t₁) d₁.text e.text := by
          rw [hadvances.texts.texts, htext, text_of_read hread]
          exact hput.expands
        obtain ⟨hlast, hi⟩ := advances_modifyAt hadvances.consistent hd₁ hexpands rfl
        exact ⟨hadvances.trans hlast, hi⟩

theorem expanding_ensure : Expanding ensure := by
  intro i t t' ht h
  rw [ensure, get_bind] at h
  cases hd : t.at? i with
  | none =>
    rw [hd] at h
    obtain ⟨-, rfl⟩ := pure_eq_ok.1 h
    exact ⟨.refl ht, expanded_of_none hd⟩
  | some entry =>
    rw [hd] at h
    dsimp only at h
    split at h
    next => exact expanding_expand budget ht h
    next hsome =>
      obtain ⟨-, rfl⟩ := pure_eq_ok.1 h
      exact ⟨.refl ht, expanded_of_at? hd (by simpa using hsome)⟩

theorem expanded_forM {x : Nat → EStateM Problem (Table Define) Unit} (hx : Expanding x)
    {places : List Nat} (ht : Consistent t) (h : places.forM x t = .ok () t') :
    Advances t t' ∧ ∀ i ∈ places, Expanded t' i := by
  induction places generalizing t with
  | nil =>
    obtain ⟨-, rfl⟩ := pure_eq_ok.1 h
    exact ⟨.refl ht, nofun⟩
  | cons i places ih =>
    rw [List.forM_eq_forM, List.forM_cons] at h
    obtain ⟨_, t₁, hfirst, h⟩ := bind_eq_ok.1 h
    obtain ⟨hadvances, hi⟩ := hx ht hfirst
    obtain ⟨hadvances', hrest⟩ := ih hadvances.consistent h
    exact ⟨hadvances.trans hadvances', List.forall_mem_cons.2 ⟨hadvances'.kept hi, hrest⟩⟩

/-- When all definitions could be expanded, all are. -/
theorem expanded_expandAll (hnames : ∀ name ∈ t.names, IsName name)
    (h : expandAll t = .ok () t') : SameTexts t t' ∧ Consistent t' ∧ ∀ i, Expanded t' i := by
  have htexts := after_of_ok h ▸ sameTexts_expandAll t
  rw [expandAll, modify_bind, get_bind] at h
  obtain ⟨hadvances, hall⟩ := expanded_forM expanding_ensure (consistent_reset hnames) h
  refine ⟨htexts, hadvances.consistent, fun i ↦ ?_⟩
  by_cases hi : i < (t.map Define.reset).size
  · exact hall i (List.mem_range.2 hi)
  · refine hadvances.kept (expanded_of_none ?_)
    exact Array.getElem?_eq_none (Nat.not_lt.1 hi)

/-! ## The result

The expansion as a function of the texts. It does not mention tables, order or budget. -/

/-- What a name has been expanded to. -/
def textOf? (t : Table Define) (name : String) : Option String :=
  (t.get? name).bind fun d ↦ d.expansion.map (·.text)

section

variable {name : String} (hnames : ∀ name ∈ t.names, IsName name) (h : expandAll t = .ok () t')

include hnames h

theorem textOf?_of_some {body : String} (hbody : texts t name = some body) :
    ∃ out, textOf? t' name = some out ∧ Expands (texts t) body out := by
  obtain ⟨htexts, hconsistent, hall⟩ := expanded_expandAll hnames h
  rw [← htexts.texts] at hbody ⊢
  obtain ⟨d, hd, rfl⟩ := Option.map_eq_some_iff.1 hbody
  obtain ⟨i, hi⟩ := Table.get?_eq_some_iff.1 hd
  obtain ⟨e, he⟩ := Option.ne_none_iff_exists'.1 (hall i hi)
  refine ⟨e.text, ?_, hconsistent.expands hd he⟩
  rw [textOf?, hd, Option.bind_some, he]
  rfl

theorem textOf?_of_none (hnone : texts t name = none) : textOf? t' name = none := by
  rw [← (expanded_expandAll hnames h).1.texts, texts, Option.map_eq_none_iff] at hnone
  rw [textOf?, hnone]
  rfl

/-- An expansion is the text with the expansions of the words put in. -/
theorem eq_mapWords_of_expands {text out : String} (hout : Expands (texts t) text out) :
    out = mapWords (fun w ↦ (textOf? t' w).getD w) text := by
  refine hout.unique (.intro (fun w _ body hbody ↦ ?_) fun w _ hnone ↦ ?_)
  · obtain ⟨e, he, hexpands⟩ := textOf?_of_some hnames h hbody
    rw [he]
    exact hexpands
  · rw [textOf?_of_none hnames h hnone]
    rfl

/-- The texts alone say what names are expanded to. -/
theorem textOf?_eq_of_texts {u' : Table Define} (htexts : texts u = texts t)
    (hu : expandAll u = .ok () u') : textOf? u' name = textOf? t' name := by
  have hnames' : ∀ name ∈ u.names, IsName name := fun name hname ↦ by
    have hdefined : ∀ t : Table Define, name ∈ t.names ↔ texts t name ≠ none := fun t ↦ by
      rw [Table.mem_names_iff, texts, Ne, Option.map_eq_none_iff, ← Ne,
        Option.ne_none_iff_exists']
    exact hnames name ((hdefined t).2 (htexts ▸ (hdefined u).1 hname))
  cases hbody : texts t name with
  | none => rw [textOf?_of_none hnames h hbody, textOf?_of_none hnames' hu (htexts ▸ hbody)]
  | some body =>
    obtain ⟨out, hout, hexpands⟩ := textOf?_of_some hnames h hbody
    obtain ⟨out', hout', hexpands'⟩ := textOf?_of_some hnames' hu (htexts ▸ hbody)
    rw [hout, hout', hexpands.unique (htexts ▸ hexpands')]

end

theorem texts_of_perm (h : u.toList.Perm t.toList) : texts u = texts t := by
  have hget : ∀ name, u.get? name = t.get? name := fun name ↦ Option.ext fun d ↦ by
    rw [← Table.mem_toList_iff_get?, ← Table.mem_toList_iff_get?, h.mem_iff]
  funext name
  rw [texts, hget, texts]

end Expansion

open Expansion

/-- When all definitions could be expanded, each has been replaced by its text with all definitions
put in at the same time, and none of them is mentioned in the result. The order of the table does
not matter for the result. -/
theorem expansion_is_simultaneous {t t' : Table Define} (hnames : ∀ name ∈ t.names, IsName name)
    (h : expandAll t = .ok () t') :
    t'.names = t.names ∧
      (∀ name d, t.get? name = some d → ∃ out, textOf? t' name = some out ∧
        (∀ other ∈ t.names, containsWord out other = false) ∧
        out = mapWords (fun w ↦ (textOf? t' w).getD w) d.text) ∧
      ∀ u u', u.toList.Perm t.toList → expandAll u = .ok () u' →
        ∀ name, textOf? u' name = textOf? t' name := by
  refine ⟨(expanded_expandAll hnames h).1.names, fun name d hd ↦ ?_, fun u u' hperm hu name ↦ ?_⟩
  · have hbody : texts t name = some d.text := by
      rw [texts, hd]
      rfl
    obtain ⟨out, hout, hexpands⟩ := textOf?_of_some hnames h hbody
    refine ⟨out, hout, fun other hother ↦ ?_, eq_mapWords_of_expands hnames h hexpands⟩
    rw [← Bool.not_eq_true, containsWord_iff (hnames other hother)]
    intro hword
    obtain ⟨d', hd'⟩ := Table.mem_names_iff.1 hother
    have hnone := hexpands.words hword
    rw [texts, hd'] at hnone
    exact nomatch hnone
  · exact textOf?_eq_of_texts hnames h (texts_of_perm hperm) hu

namespace Sample

/-- Definitions that mention each other, before and after their own place, and words that only start
like a name. -/
def definitions : List (String × Define) :=
  [("AREA", "SIDE*(SIDE+UNIT)"), ("UNIT", "UNITS-1"), ("SIDE", "2*UNIT")].map fun (name, text) ↦
    (name, ⟨⟨.define, name, default⟩, 1, 0, text, none⟩)

end Sample

/-- The definitions of the sample, also with the table turned around. -/
theorem expansion_is_simultaneous_sample :
    ∃ t' u', expandAll (.ofList Sample.definitions) = .ok () t' ∧
      expandAll (.ofList Sample.definitions.reverse) = .ok () u' ∧
      ["AREA", "UNIT", "SIDE"].map (textOf? t')
        = [some "2*UNITS-1*(2*UNITS-1+UNITS-1)", some "UNITS-1", some "2*UNITS-1"] ∧
      (∀ name ∈ t'.names, ∃ out, textOf? t' name = some out ∧ containsWord out "UNIT" = false) ∧
      ∀ name, textOf? u' name = textOf? t' name := by
  have h : expandAll (.ofList Sample.definitions) = _ := eq_ok_of_run' (a := ()) (by decide +kernel)
  have hu : expandAll (.ofList Sample.definitions.reverse) = _ :=
    eq_ok_of_run' (a := ()) (by decide +kernel)
  have hnames : ∀ name ∈ (Table.ofList Sample.definitions).names, IsName name := by
    decide +kernel
  have hperm : (Table.ofList Sample.definitions.reverse).toList.Perm
      (Table.ofList Sample.definitions).toList := by
    rw [Table.toList_ofList (by decide), Table.toList_ofList (by decide)]
    exact List.reverse_perm _
  obtain ⟨hsame, hall, horder⟩ := expansion_is_simultaneous hnames h
  refine ⟨_, _, h, hu, by decide +kernel, fun name hname ↦ ?_, horder _ _ hperm hu⟩
  obtain ⟨d, hd⟩ := Table.mem_names_iff.1 (hsame ▸ hname)
  obtain ⟨out, hout, habsent, -⟩ := hall name d hd
  exact ⟨out, hout, habsent "UNIT" (by decide +kernel)⟩

end CharacterScript
