import CharacterScript.Proofs.Relocation.Edges
import CharacterScript.Proofs.Relocation.Layers
import CharacterScript.Proofs.Relocation.Names
import CharacterScript.Proofs.Steps
import CharacterScript.Proofs.Substitution

/-!
# The definitions of an accepted layer

The names of definitions are words, because they were written as names. So the expansion of a
definition mentions no definition any more: neither do the names that are read in it, nor the texts
of its calculations (`Session.Reachable.expansion`). It was read as an expression, and so it has a
phrase.

## Read on its own

The text of an expansion is read once, when it has been put together, and its tree is kept. So
everything that is said of trees of files holds of it as well: it comes from lexemes, its names
are words of the text, and its calculations are parts of it. And since the text has no word left
that is defined, nothing in the tree is looked up again.
-/

namespace CharacterScript

open Running

/-! ## Names are words

A name is a token, so it is made of characters of words and is no keyword. Every definition of a
session was declared by some text and has such a name. -/

theorem IsIdentifier.isName {s : String} (h : IsIdentifier s) : IsName s := by
  refine ⟨h.isWord, ?_⟩
  rintro rfl
  exact absurd h.start (by decide)

theorem isIdentifier_of_name_token {source s : String} {span : Span} {ts : List Lexeme}
    (hlex : lex source = .ok ts) (h : ⟨.name s, span⟩ ∈ ts) : IsIdentifier s := by
  obtain ⟨front, back, rfl⟩ := List.append_of_mem h
  have hspells := ((lex_tiles hlex).written nofun).spells
  generalize hcs : between source _ _ = cs at hspells
  cases hspells with
  | name hs => exact hs

theorem ReadsAs.isIdentifier_define {source : String} {items : List Item} (h : ReadsAs source items)
    {d : DefineDecl} (hd : .define d ∈ items) : IsIdentifier d.name := by
  obtain ⟨ts, hlex, hparse⟩ := h
  obtain ⟨body, rfl, hbody⟩ := (lex_tiles hlex).ends
  obtain ⟨ps, rfl, -, rfl⟩ := (parseFile_eq_ok_iff fun l hl ↦ (hbody l hl).1).1 hparse
  obtain ⟨p, hp, htree⟩ := List.mem_map.1 hd
  cases p with
  | define word s nameSpan body =>
    cases htree
    have hname : ⟨.name s, nameSpan⟩ ∈ ps.flatMap ItemPhrase.lexemes :=
      List.mem_flatMap.2 ⟨_, hp, by simp [ItemPhrase.lexemes]⟩
    exact isIdentifier_of_name_token hlex (List.mem_append_left _ hname)
  | directive | global | callable => cases htree

/-- Definitions have the names they were written with. -/
theorem Session.Reachable.isIdentifier {s : Session} (h : s.Reachable) :
    ∀ name ∈ s.program.defines.names, IsIdentifier name := by
  induction h with
  | new vocabulary entryFile => exact fun name hname ↦ nomatch hname
  | layer hs source ih =>
    refine compileLayer_induction
      (P := fun p ↦ ∀ name ∈ p.defines.names, IsIdentifier name) hs.sound ih ?_
    intro items p q hitems _ _ hp hstep
    cases hstep with
    | declare hi hdeclared =>
      cases hdeclared with
      | @define d e =>
        intro name hname
        obtain ⟨f, hf⟩ := Table.mem_names_iff.1 hname
        rw [Table.get?_insert] at hf
        split at hf
        next heq => exact heq ▸ hitems.isIdentifier_define hi
        next => exact hp name (Table.mem_names_iff.2 ⟨f, hf⟩)
      | directive | seen | global | main | script | function => exact hp
    | record => exact hp
    | expand htexts =>
      show ∀ name ∈ Table.names _, IsIdentifier name
      rw [htexts.names]
      exact hp
    | lower =>
      obtain ⟨root, new, hafter, -⟩ := after_lowerBody _ _ _ p
      rw [hafter]
      exact hp
    | @setBody owner => cases owner <;> exact hp

/-- The names of definitions are words. -/
theorem Session.Reachable.isName {s : Session} (h : s.Reachable) :
    ∀ name ∈ s.program.defines.names, IsName name :=
  fun name hname ↦ (h.isIdentifier name hname).isName

/-! ## Where they stand

Definitions are seen by offsets. The items of a file come one behind the other, and all of a body
is on the same side of each definition. -/

/-- Where lexemes of definitions start in two files of the same items. -/
def definitionPlaces (ps : List ItemPhrase) (f : ItemPhrase → ItemPhrase) : Offsets := fun a a' ↦
  ∃ i ∈ ps, i.isDefine = true ∧ (∃ l ∈ i.lexemes, l.span.start = a) ∧
    ∃ l ∈ (f i).lexemes, l.span.start = a'

section

variable {source source' : String} {ps : List ItemPhrase} {f : ItemPhrase → ItemPhrase}
  {i : ItemPhrase}

theorem definitionPlaces_of_edged (hi : i ∈ ps) (hdefine : i.isDefine = true) {r r' : Span}
    (hr : r.Edged i.lexemes) (hr' : r'.Edged (f i).lexemes) :
    definitionPlaces ps f r.start r'.start :=
  ⟨i, hi, hdefine, hr.start, hr'.start⟩

/-- A definition is in front of all of another item or of nothing of it. -/
theorem WrittenAs.alike_of_edged (h : WrittenAs source ps) (h' : WrittenAs source' (ps.map f))
    (hi : i ∈ ps) (hdefine : i.isDefine = false) {r r' : Span} (hr : r.Edged i.lexemes)
    (hr' : r'.Edged (f i).lexemes) : (definitionPlaces ps f).Alike r.start r'.start := by
  rintro _ _ ⟨j, hj, hdefine', ⟨l, hl, rfl⟩, l', hl', rfl⟩
  obtain ⟨m, hm, hstart⟩ := hr.start
  obtain ⟨m', hm', hstart'⟩ := hr'.start
  have hne : i ≠ j := by
    rintro rfl
    cases hdefine.symm.trans hdefine'
  rw [← hstart, ← hstart']
  exact h.same_order h' hj hi hne hl hm hl' hm'

/-- A definition is seen from all of an item other than a definition or from nothing of it. -/
theorem WrittenAs.visibleFrom_eq (h : WrittenAs source ps) (hi : i ∈ ps)
    (hitem : i.isDefine = false)
    {depth : Nat} {e : Define} (he : e.depth = depth →
      ∃ d, .define d ∈ ps.map (ItemPhrase.tree source) ∧ d.span.start = e.offset)
    {r r' : Span} (hr : r.Edged i.lexemes) (hr' : r'.Edged i.lexemes) :
    e.visibleFrom depth r.start = e.visibleFrom depth r'.start := by
  rw [Define.visibleFrom, Define.visibleFrom]
  by_cases hdepth : e.depth = depth
  · obtain ⟨d, hd, hoffset⟩ := he hdepth
    obtain ⟨j, hj, htree⟩ := List.mem_map.1 hd
    obtain ⟨hdefine, hedged⟩ := ItemPhrase.edged_define htree
    have hplace := definitionPlaces_of_edged (f := id) hj hdefine hedged hedged
    have hsame : WrittenAs source (ps.map id) := by rwa [List.map_id]
    have hiff := h.alike_of_edged hsame hi hitem hr hr' _ _ hplace
    rw [hoffset] at hiff
    simp only [hiff]
  · rw [beq_eq_false_iff_ne.2 hdepth, Bool.false_and, Bool.false_and]

end

/-! ## Expansions are read -/

/-- The tree is what the text reads as. -/
def Expansion.Reads (e : Expansion) : Prop :=
  ∃ ts, lex e.text = .ok ts ∧ parseExpression e.text ts = .ok e.tree

theorem Expansion.reads_of_read {name text : String} {pos : Position} {e : Expansion}
    (h : read name pos text = .ok e) : e.Reads := by
  rw [read] at h
  split at h
  · cases h
  next ts hlex =>
    split at h
    · cases h
    next tree hparse =>
      cases h
      exact ⟨ts, hlex, hparse⟩

/-- All expansions in the table were read. -/
def Expansion.AllRead (t : Table Define) : Prop :=
  ∀ {name d e}, t.get? name = some d → d.expansion = some e → e.Reads

/-- A step of expanding keeps a table in which all was read such a table. -/
theorem Expansion.indistinct_allRead : Indistinct fun t u ↦ t = u ∧ AllRead t where
  size := by
    rintro t _ ⟨rfl, -⟩
    rfl
  at? := by
    rintro t _ ⟨rfl, -⟩ i
    cases t.at? i with
    | none => exact .inl ⟨rfl, rfl⟩
    | some entry => exact .inr ⟨entry.1, entry.2, entry.2, rfl, rfl, rfl, rfl⟩
  note := by
    rintro t _ ⟨rfl, hall⟩ _ _ _ e hread i
    refine ⟨rfl, fun {name d e'} hd he' ↦ ?_⟩
    obtain ⟨j, hat⟩ := Table.get?_eq_some_iff.1 hd
    rw [Table.at?_modifyAt] at hat
    split at hat
    · obtain ⟨entry, -, heq⟩ := Option.map_eq_some_iff.1 hat
      cases heq
      cases he'
      exact reads_of_read hread
    · exact hall (Table.get?_eq_some_iff.2 ⟨j, hat⟩) he'

theorem Expansion.allRead_expandAll {t t' : Table Define} (h : expandAll t = .ok () t') :
    AllRead t' := by
  have hreset : AllRead (t.map Define.reset) := by
    intro name d e hd he
    rw [Table.get?_map] at hd
    obtain ⟨d, -, rfl⟩ := Option.map_eq_some_iff.1 hd
    cases he
  obtain ⟨_, u, -, -, -, hall⟩ :=
    (agree_expandAll_of_reset indistinct_allRead ⟨rfl, hreset⟩).ok_of_ok h
  exact @hall

/-- A definition of an expanded table: as it was, with the expansion of its text, which was read. -/
theorem Expansion.exists_expanded {t t' : Table Define} (hnames : ∀ name ∈ t.names, IsName name)
    (h : expandAll t = .ok () t') {name : String} {d : Define} (hd : t.get? name = some d) :
    ∃ e, t'.get? name = some { d with expansion := some e } ∧ e.Reads ∧
      Expands (texts t) d.text e.text := by
  obtain ⟨htexts, hconsistent, hexpanded⟩ := expanded_expandAll hnames h
  obtain ⟨i, hi⟩ := Table.get?_eq_some_iff.1 hd
  obtain ⟨d', hd', -⟩ := htexts.at? hi
  have hget := Table.get?_eq_some_iff.2 ⟨i, hd'⟩
  obtain ⟨old, hold, hreset⟩ := htexts.get? hget
  cases hd.symm.trans hold
  obtain ⟨e, he⟩ := Option.ne_none_iff_exists'.1 (hexpanded i hd')
  obtain ⟨hident, hdepth, hoffset, htext, -⟩ := Define.mk.inj hreset
  have hexpands := hconsistent.expands hget he
  rw [htexts.texts, ← htext] at hexpands
  refine ⟨e, ?_, allRead_expandAll h hget he, hexpands⟩
  rw [hget, hident, hdepth, hoffset, htext, ← he]

/-- In an accepted layer every definition was expanded, to a text that was read and that mentions no
definition. -/
theorem Session.Reachable.expansion {s s' : Session} {source : String} {depth : Nat}
    (hs : s.Reachable) (h : s.compileLayer source = (.ok depth, s')) {name : String} {d : Define}
    (hd : s'.program.defines.get? name = some d) :
    ∃ e, d.expansion = some e ∧ e.Reads ∧
      ∀ w ∈ wordsOf e.text, s'.program.defines.get? w = none := by
  obtain ⟨-, -, items, -, hcompile⟩ := compileLayer_ok h
  obtain ⟨declared, defines, -, hdefines, hlower⟩ := Layer.compile_stages hcompile
  have ht : s'.program.defines = defines := Layer.defines_lowerAll hlower
  have htexts := after_of_ok hdefines ▸ Expansion.sameTexts_expandAll declared.defines
  have hnames : ∀ name ∈ declared.defines.names, IsName name := by
    rw [← htexts.names, ← ht]
    exact (hs.next h).isName
  obtain ⟨-, hconsistent, hexpanded⟩ := Expansion.expanded_expandAll hnames hdefines
  rw [ht] at hd ⊢
  obtain ⟨i, hat⟩ := Table.get?_eq_some_iff.1 hd
  obtain ⟨e, he⟩ := Option.ne_none_iff_exists'.1 (hexpanded i hat)
  refine ⟨e, he, Expansion.allRead_expandAll hdefines hd he, fun w hw ↦ ?_⟩
  have hnone := (hconsistent.expands hd he).words hw
  exact Option.map_eq_none_iff.1 hnone

end CharacterScript
