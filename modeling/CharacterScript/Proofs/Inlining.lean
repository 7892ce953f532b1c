import CharacterScript.Proofs.Relocation.Definitions
import CharacterScript.Proofs.Relocation.Splices

/-!
# Using a definition and writing it out

Where code uses the name of a definition that it sees, the text of the definition can be written out
in parentheses instead. The definition was expanded and read on its own and is lowered without
looking up anything more in it. Written out, its text is read and lowered like all other code. Both
lead to the same (`define_use_eq_inlined`), because nothing is left in the text to look up, and
because the text reads alike between the parentheses.

## The exception

One kind of text does not: a text that ends in a line comment takes in the closing parenthesis. No
definition is written so, but its expansion may be so, because definitions are put into comments,
too (`inlined_comment_refused`).

## Comparing the two texts

The text with the definition written out differs from the other in a few lexemes, so what stands
in front is read as before and what stands behind is moved. In the trees a name has given way to
the tree of the definition, at another place. This is a motion of trees, and that it makes no
difference to lowering is known for all motions that put definitions in.
-/

namespace CharacterScript

open Running

namespace Splice

variable {source : String} (S : Splice source)

/-- Lexemes of a definition in the old text and in the new. -/
def place : Offsets := fun a a' ↦
  ∃ i ∈ S.items, i.isDefine = true ∧ (∃ l ∈ i.lexemes, l.span.start = a) ∧
    ∃ l ∈ (i.edit S.edit).lexemes, l.span.start = a'

theorem place_alike {j : ItemPhrase} (hj : j ∈ S.items) (hcallable : j.isDefine = false)
    {r r' : Span} (hr : r.Edged j.lexemes) (hr' : r'.Edged (j.edit S.edit).lexemes) :
    S.place.Alike r.start r'.start :=
  WrittenAs.alike_of_edged S.written S.written_result hj hcallable hr hr'

/-! ## Parts -/

variable {m : Motion}

/-- Of a part on one side of the name nothing changes but the place. -/
theorem carries_side (hm : m.Free) {part : Part}
    (h : part ∈ S.front ∨ part ∈ S.back) : S.edit.Carries m source S.result part := by
  cases part with
  | name s at_ =>
    have hne : at_ ≠ S.span := by
      rintro rfl
      obtain h | h := h
      · exact lt_irrefl _ (S.stretch.front_lt
          (List.mem_flatMap.2 ⟨_, h, List.mem_singleton_self _⟩)).1
      · exact absurd S.stretch.start_lt_stop
          (Nat.not_lt.2 (S.stretch.back_ge
            (List.mem_flatMap.2 ⟨_, h, List.mem_singleton_self _⟩)).1)
    intro span span'
    rw [S.leaf_of_ne hne]
    exact hm.name s false span span'
  | lexeme l => exact S.stretch.carries_part hm h
  | calculation => exact S.stretch.carries_part hm h

/-! ## The text in the place of the name

The parentheses keep what is inside together and apart from operators on both sides, and their
tree is the tree inside. -/

/-- In a text that mentions no definition, nothing is looked up. -/
theorem inserted_moves {t : Table Define} (hnamed : ∀ {name d}, t.get? name = some d →
      IsName name ∧ d.ident.name = name)
    (hwords : ∀ w ∈ wordsOf S.text, t.get? w = none) (span : Span) :
    (S.phrase.tree S.text).Moves (.plain t) ((S.inserted.tree S.result).withSpan span) := by
  obtain ⟨stop, hlex, -⟩ := S.fills
  have hnone : ∀ {s at_}, ⟨.name s, at_⟩ ∈ S.phrase.lexemes → t.get? s = none := fun hs ↦
    hwords _ (mem_wordsOf_of_name hlex S.phrase.parted hs)
  have hcarries : ∀ part ∈ S.phrase.parts,
      (Edit.plain (Span.rebase 0 (S.span.start + 1))).Carries (.plain t) S.text S.result part := by
    intro part hpart
    have hsub : ∀ l ∈ part.lexemes, l ∈ S.phrase.lexemes := by
      rw [← S.phrase.flatMap_parts]
      exact fun l hl ↦ List.mem_flatMap.2 ⟨part, hpart, hl⟩
    cases part with
    | name s at_ => exact fun _ span ↦ ⟨hnone (hsub _ (List.mem_singleton_self _)), span, rfl⟩
    | lexeme l =>
      obtain ⟨token, at_⟩ := l
      rintro s rfl _ span
      exact ⟨hnone (hsub _ (List.mem_singleton_self _)), span, rfl⟩
    | calculation word opening inner closing =>
      have hparts : (S.phrase.parts.flatMap Part.lexemes).Sublist
          (S.phrase.lexemes ++ [⟨.eof, stop⟩]) := by
        rw [S.phrase.flatMap_parts]
        exact List.sublist_append_left _ _
      obtain ⟨hopening, hclosing, hle⟩ := Part.calculation_edges hlex hparts hpart
      obtain ⟨_, hstands⟩ := (lex_tiles hlex).stands hopening
      obtain ⟨_, hstands'⟩ := (lex_tiles hlex).stands hclosing
      -- the calculation keeps its text, and a word of that is a word of the whole text
      refine ⟨S.captured_inserted hstands.stop hstands'.start hle, fun d hd ↦ ?_⟩
      obtain ⟨name, hget⟩ := Table.mem_values_iff.1 hd
      obtain ⟨hisName, hident⟩ := hnamed hget
      rw [hident, Bool.eq_false_iff]
      intro hcontains
      have hw := mem_wordsOf_of_captured hlex hopening hclosing hle
        ((containsWord_iff hisName).1 hcontains)
      cases hget.symm.trans (hwords name hw)
  rw [inserted, Phrase.tree, Expr.withSpan_withSpan]
  simpa using Phrase.moves_edit (fun _ _ ↦ trivial) hcarries (S.phrase.tree S.text).span span

/-! ## Items -/

theorem parts_before {i : ItemPhrase} (hi : i ∈ S.before) : i.parts ⊆ S.front :=
  fun _ hpart ↦ List.mem_append_left _ (List.mem_flatMap.2 ⟨i, hi, hpart⟩)

theorem parts_after {i : ItemPhrase} (hi : i ∈ S.after) : i.parts ⊆ S.back :=
  fun _ hpart ↦ List.mem_append_right _ (List.mem_flatMap.2 ⟨i, hi, hpart⟩)

/-- A definition is not the item with the name. -/
theorem beside_define {i : ItemPhrase} (hi : i ∈ S.items) (hdefine : i.isDefine = true) :
    S.stretch.Beside i.lexemes := by
  rcases List.mem_append.1 hi with hi | hi
  · exact S.stretch.beside_item (.inl (S.parts_before hi))
  · rcases List.mem_cons.1 hi with rfl | hi
    · have hname : .name S.name S.span ∈ S.item.parts := by simp [S.parts]
      cases hitem : S.item with
      | define => simp [hitem, ItemPhrase.parts] at hname
      | directive | global | callable =>
        rw [hitem] at hdefine
        cases hdefine
    · exact S.stretch.beside_item (.inr (S.parts_after hi))

/-- The items stay the same if the bodies of callables do. -/
theorem item_moves {same : Block → Block → Prop} {i : ItemPhrase} (hi : i ∈ S.items)
    (hbody : ∀ {kind word s nameSpan params body}, i = .callable kind word s nameSpan params body →
      same (body.tree source) ((body.edit S.edit).tree S.result)) :
    (i.tree source).Moves S.place same ((i.edit S.edit).tree S.result) :=
  S.stretch.moves_item (f := ItemPhrase.edit S.edit) rfl hi rfl (S.beside_define hi) hbody

/-! ## Bodies

A body sees all of its definitions from each of its places, since no definition stands inside of
it. -/

/-- Every part of the file is on one side of the name, but for the name. -/
theorem mem_side {i : ItemPhrase} (hi : i ∈ S.items) {part : Part} (hpart : part ∈ i.parts) :
    (part ∈ S.front ∨ part ∈ S.back) ∨ i = S.item ∧ part = .name S.name S.span := by
  rcases List.mem_append.1 hi with hi | hi
  · exact .inl (.inl (S.parts_before hi hpart))
  · rcases List.mem_cons.1 hi with rfl | hi
    · rw [S.parts, List.mem_append, List.mem_cons] at hpart
      obtain hleft | rfl | hright := hpart
      · exact .inl (.inl (List.mem_append_right _ hleft))
      · exact .inr ⟨rfl, rfl⟩
      · exact .inl (.inr (List.mem_append_left _ hright))
    · exact .inl (.inr (S.parts_after hi hpart))

/-- All bodies stay the same, if the item with the name sees the definition and the text in
parentheses is what the definition leads to. -/
theorem forall₂_moves {top : Nat} {t : Table Define} {d : Define} {e : Expansion}
    (hd : t.get? S.name = some d) (he : d.expansion = some e)
    (hvisible : ∀ r ∈ (S.item.tree source).spans, d.visibleFrom top r.start = true)
    (hmoves : ∀ span, e.tree.Moves (.plain t) ((S.inserted.tree S.result).withSpan span)) :
    List.Forall₂ (Item.Moves S.place (Block.Inlined top S.place t))
      (S.items.map (ItemPhrase.tree source))
      ((S.items.map (ItemPhrase.edit S.edit)).map (ItemPhrase.tree S.result)) := by
  rw [List.forall₂_map_left_iff, List.forall₂_map_right_iff, List.forall₂_map_right_iff,
    List.forall₂_same]
  intro i hi
  refine S.item_moves hi ?_
  rintro kind word s nameSpan params body rfl
  have hspans : ∀ {source : String} {params : ParamsPhrase} {word nameSpan : Span}
      {body : BlockPhrase}, ∀ r ∈ (body.tree source).spans,
      r ∈ ((ItemPhrase.callable kind word s nameSpan params body).tree source).spans := by
    intro source params word nameSpan body r hr
    exact List.mem_cons_of_mem _ (List.mem_cons_of_mem _ hr)
  refine ⟨fun r hr r' hr' ↦ S.place_alike hi rfl (ItemPhrase.edged _ r (hspans r hr))
    (ItemPhrase.edged _ r' (hspans r' hr')),
      BlockPhrase.moves_edit (Motion.free_inlining _ _).place fun part hpart ↦ ?_⟩
  have hpart' : part ∈ (ItemPhrase.callable kind word s nameSpan params body).parts := by
    simp [ItemPhrase.parts, hpart]
  obtain hside | ⟨hitem, rfl⟩ := S.mem_side hi hpart'
  · exact S.carries_side (Motion.free_inlining _ _) hside
  · intro _ span
    rw [S.leaf_name]
    refine .inr ⟨d, e, hd, fun r hr ↦ hvisible r ?_, he, hmoves span⟩
    rw [← hitem]
    exact hspans r hr

end Splice

/-! ## Sessions -/

/-- A name is used at a place of a text: in the body of a callable it stands there as an expression
of its own. A name behind an `@`, the name of a call, one that is declared or assigned to, and what
stands in a calculation are other parts of a body. -/
def UsesName (source name : String) (span : Span) : Prop :=
  ∃ ps, WrittenAs source ps ∧ ∃ i ∈ ps, .name name span ∈ i.parts

theorem Expansion.Reads.exists_phrase {e : Expansion} (h : e.Reads) :
    ∃ p : Phrase, p.Fills e.text ∧ p.tree e.text = e.tree := by
  obtain ⟨ts, hlex, hparse⟩ := h
  exact exists_fills hlex hparse

/-- A text whose items compile is accepted. -/
theorem Session.compileLayer_of_readsAs {s : Session} {source : String} {items : List Item}
    {q : Program} (hitems : ReadsAs source items)
    (h : (s.nextLayer source).compile items (deepen s.program) = .ok () q) :
    s.compileLayer source = (.ok (s.nextLayer source).depth, { s with program := q }) := by
  obtain ⟨ts, hlex, hparse⟩ := hitems
  have htext : compileText s.vocabulary s.entryFile source (deepen s.program) = .ok () q := by
    rw [compileText]
    dsimp only
    rw [hlex]
    dsimp only
    rw [hparse]
    exact h
  simp only [compileLayer, htext]
  rfl

namespace Layer.Compiled

variable {l : Layer} {p : Program} {source : String} {ps : List ItemPhrase} {i : ItemPhrase}

/-- A definition that is seen from one lexeme of an item other than a definition is seen from all of
it. -/
theorem visibleFrom_of_mem (h : l.Compiled (ps.map (ItemPhrase.tree source)) p)
    (hps : WrittenAs source ps) (hi : i ∈ ps) (hitem : i.isDefine = false)
    {name : String} {d : Define}
    (hd : p.defines.get? name = some d) {m : Lexeme} (hm : m ∈ i.lexemes)
    (hvisible : d.visibleFrom l.depth m.span.start = true) :
    ∀ r ∈ (i.tree source).spans, d.visibleFrom l.depth r.start = true := by
  intro r hr
  rw [hps.visibleFrom_eq hi hitem (h.defines hd).2 (i.edged r hr) (Span.edged_of_mem hm)]
  exact hvisible

end Layer.Compiled

/-- In an accepted layer, where a name is used and stands for a definition that is seen there, the
text of the definition can be written out in parentheses. The layer is accepted then, too, with the
same code, the same numbers, texts and names of variables in every scope, and the same pools, unless
the text ends in a line comment. -/
theorem define_use_eq_inlined {s s' : Session} {source name : String} {depth : Nat} {span : Span}
    {d : Define} (hs : s.Reachable) (h : s.compileLayer source = (.ok depth, s'))
    (huse : UsesName source name span)
    (hdefine : s'.program.define? depth name span.start = some d) :
    ∃ e, d.expansion = some e ∧ (¬ EndsInLineComment e.text →
      ∃ t, s.compileLayer (inlinedAt source span e.text) = (.ok depth, t) ∧
        t.program.scopes.map Scope.unplaced = s'.program.scopes.map Scope.unplaced ∧
        t.program.pools = s'.program.pools) := by
  obtain ⟨hd, hvisible⟩ := Option.filter_eq_some_iff.1 hdefine
  obtain ⟨e, he, hreads, hwords⟩ := hs.expansion h hd
  refine ⟨e, he, fun hends ↦ ?_⟩
  obtain ⟨phrase, hfills, htree⟩ := hreads.exists_phrase
  obtain ⟨ps, hps, i, hi, hpart⟩ := huse
  obtain ⟨before, after, rfl⟩ := List.append_of_mem hi
  obtain ⟨left, right, hparts⟩ := List.append_of_mem hpart
  let S : Splice source :=
    ⟨before, i, after, left, name, span, right, e.text, phrase, hps, hparts, hfills, hends⟩
  obtain ⟨hdepth, -, items, hitems, hcompile⟩ := Session.compileLayer_ok h
  obtain rfl : S.items.map (ItemPhrase.tree source) = items :=
    (readsAs_iff.2 ⟨_, hps, rfl⟩).unique hitems
  have hcompiled : (s.nextLayer source).Compiled (S.items.map (ItemPhrase.tree source))
      s'.program :=
    Layer.compiled_of_compile hs.sound rfl (fun _ hd ↦ hitems.ordered.isWord hd) hcompile
  have hitem : i.isDefine = false := by
    cases i with
    | define => simp [ItemPhrase.parts] at hpart
    | directive | global | callable => rfl
  have hmem : (⟨.name name, span⟩ : Lexeme) ∈ i.lexemes := by
    rw [← i.flatMap_parts]
    exact List.mem_flatMap.2 ⟨_, hpart, List.mem_singleton_self _⟩
  rw [hdepth] at hvisible
  have hall := hcompiled.visibleFrom_of_mem hps hi hitem hd hmem hvisible
  have hnamed : ∀ {name d}, s'.program.defines.get? name = some d →
      IsName name ∧ d.ident.name = name := fun hget ↦
    ⟨(hs.next h).isName _ (Table.mem_names_iff.2 ⟨_, hget⟩), (hs.next h).named.defines hget⟩
  have hmoves := S.forall₂_moves hd he hall fun span ↦
    htree ▸ S.inserted_moves hnamed hwords span
  have hold : (Session.deepen s.program).Moved (s.nextLayer source).depth S.place
      (Session.deepen s.program) :=
    .refl fun d hd ↦ (Nat.lt_succ_of_le (hs.sound.defines d hd)).ne
  have hlayers : (s.nextLayer source).Same (s.nextLayer S.result) := ⟨rfl, rfl⟩
  obtain ⟨r, hr, hmoved⟩ := Layer.exists_compile_moved hlayers hold hcompile hmoves
  have hresult := Session.compileLayer_of_readsAs (readsAs_iff.2 ⟨_, S.written_result, rfl⟩) hr
  exact ⟨_, hdepth ▸ hresult, hmoved.scopes, hmoved.pools⟩

/-! ## Two layers to look at -/

theorem noOpening_cons {l : Lexeme} {rest : List Lexeme} (h : l.token ≠ .punct .openParen) :
    NoOpening (l :: rest) := by
  rintro _ ⟨⟩
  exact h

namespace Sample

/-- A script that prints what `X` stands for, written from byte `n` on. -/
def printX (n : Nat) : ItemPhrase :=
  .callable .script ⟨n, n + 6⟩ "main" ⟨n + 7, n + 11⟩ (.empty ⟨n + 11, n + 12⟩ ⟨n + 12, n + 13⟩)
    (.mk ⟨n + 14, n + 15⟩ (.cons (.call (.full ⟨none, "Print", ⟨n + 16, n + 21⟩, ⟨n + 21, n + 22⟩⟩
      (.last (.expr (.name "X" ⟨n + 22, n + 23⟩))) ⟨n + 23, n + 24⟩)) .nil) ⟨n + 25, n + 26⟩)

theorem whole_printX (n : Nat) (rest : List Lexeme) : (printX n).Whole rest :=
  ⟨List.isChain_nil, ⟨trivial, noOpening_cons nofun⟩, trivial⟩

theorem usesName_printX {source : String} {ps : List ItemPhrase} {n : Nat}
    (h : WrittenAs source (ps ++ [printX n])) : UsesName source "X" ⟨n + 22, n + 23⟩ := by
  refine ⟨_, h, printX n, List.mem_append_right _ (List.mem_singleton_self _), ?_⟩
  simp [printX, ItemPhrase.parts, BlockPhrase.parts, StmtsPhrase.parts, StmtPhrase.parts,
    CallPhrase.parts, ArgsPhrase.parts, ArgPhrase.parts, Phrase.parts]

/-- What a layer makes of a definition, as it is found when the layer is tried. -/
theorem exists_expansion (source name text : String) (offset : Nat)
    (h : ((start.compileLayer source).1.toOption,
      ((start.compileLayer source).2.program.define? 1 name offset).bind fun d ↦
        d.expansion.map (·.text)) = (some 1, some text)) :
    ∃ s d e, start.compileLayer source = (.ok 1, s) ∧ s.program.define? 1 name offset = some d ∧
      d.expansion = some e ∧ e.text = text := by
  obtain ⟨haccepted, hfound⟩ := Prod.mk.inj h
  obtain ⟨s, hs⟩ := accepted_of_toOption source haccepted
  rw [hs] at hfound
  obtain ⟨d, hd, hfound⟩ := Option.bind_eq_some_iff.1 hfound
  obtain ⟨e, he, htext⟩ := Option.map_eq_some_iff.1 hfound
  exact ⟨s, d, e, hs, hd, he, htext⟩

/-- The sum of `g` and itself is all of a definition. -/
theorem whole_double {left right sign : Span} {l : Lexeme} {rest : List Lexeme}
    (h : l.token ≠ .punct .openParen) (hnone : nextOperator? (l :: rest) = none) :
    (Phrase.binary (.name "g" left) .add sign (.name "g" right)).Whole 0 (l :: rest) := by
  refine ⟨⟨Nat.zero_le _, trivial, trivial⟩, ⟨noOpening_operator .add sign _, noOpening_cons h⟩, ?_⟩
  intro op hop
  rw [hnone] at hop
  cases hop

/-- A layer that prints a sum. -/
def sum : String :=
  "global g
#define X g + g
script main() \x7b Print(X) \x7d"

theorem usesName_sum : UsesName sum "X" ⟨47, 48⟩ := by
  refine @usesName_printX sum [.global ⟨0, 6⟩ "g" ⟨7, 8⟩, .define ⟨9, 16⟩ "X" ⟨17, 18⟩
    (.binary (.name "g" ⟨19, 20⟩) .add ⟨21, 22⟩ (.name "g" ⟨23, 24⟩))] 25 ⟨⟨51, 51⟩, rfl, ?_⟩
  exact ⟨trivial, whole_double nofun rfl, whole_printX _ _, trivial⟩

/-- A layer that prints a sum with a comment in it. The comment mentions a definition whose text
closes the comment and opens another one. -/
def openComment : String :=
  "global g
#define Y f(\"*/ //\")
#define X g /* Y */ + g
script main() \x7b Print(X) \x7d"

theorem usesName_openComment : UsesName openComment "X" ⟨76, 77⟩ := by
  refine @usesName_printX openComment [.global ⟨0, 6⟩ "g" ⟨7, 8⟩,
    .define ⟨9, 16⟩ "Y" ⟨17, 18⟩ (.call (.full ⟨none, "f", ⟨19, 20⟩, ⟨20, 21⟩⟩
      (.last (.text "*/ //" ⟨21, 28⟩)) ⟨28, 29⟩)),
    .define ⟨30, 37⟩ "X" ⟨38, 39⟩ (.binary (.name "g" ⟨40, 41⟩) .add ⟨50, 51⟩
      (.name "g" ⟨52, 53⟩))] 54 ⟨⟨80, 80⟩, rfl, ?_⟩
  exact ⟨trivial, ⟨trivial, trivial, nofun⟩, whole_double nofun rfl, whole_printX _ _, trivial⟩

end Sample

/-- Printing the sum by its name is printing it in parentheses. -/
theorem define_use_eq_inlined_sum :
    ∃ s t, Sample.start.compileLayer Sample.sum = (.ok 1, s) ∧
      Sample.start.compileLayer
        "global g
#define X g + g
script main() \x7b Print((g + g)) \x7d" = (.ok 1, t) ∧
      t.program.scopes.map Scope.unplaced = s.program.scopes.map Scope.unplaced ∧
      t.program.pools = s.program.pools := by
  obtain ⟨s, d, e, hs, hd, he, htext⟩ :=
    Sample.exists_expansion Sample.sum "X" "g + g" 47 (by decide +kernel)
  obtain ⟨e', he', hinlined⟩ :=
    define_use_eq_inlined Sample.reachable_start hs Sample.usesName_sum hd
  cases he.symm.trans he'
  rw [htext] at hinlined
  obtain ⟨t, ht, hscopes, hpools⟩ := hinlined (by
    rintro ⟨front, body, ts, hslash, -, -⟩
    have hmem : '/' ∈ "g + g".toList := hslash ▸ by simp
    exact absurd hmem (by decide))
  have hsource : inlinedAt Sample.sum ⟨47, 48⟩ "g + g" = "global g
#define X g + g
script main() \x7b Print((g + g)) \x7d" := by decide +kernel
  exact ⟨s, t, hs, hsource ▸ ht, hscopes, hpools⟩

/-- A text that ends in a line comment cannot be written out: the layer is refused then. -/
theorem inlined_comment_refused :
    ∃ s d e, Sample.start.compileLayer Sample.openComment = (.ok 1, s) ∧
      UsesName Sample.openComment "X" ⟨76, 77⟩ ∧ s.program.define? 1 "X" 76 = some d ∧
      d.expansion = some e ∧
      ∀ depth t, Sample.start.compileLayer (inlinedAt Sample.openComment ⟨76, 77⟩ e.text)
        ≠ (.ok depth, t) := by
  obtain ⟨hrefused, hexpands⟩ : (Sample.start.compileLayer (inlinedAt Sample.openComment ⟨76, 77⟩
        "g /* f(\"*/ //\") */ + g")).1.toOption = none ∧
      ((Sample.start.compileLayer Sample.openComment).1.toOption,
        ((Sample.start.compileLayer Sample.openComment).2.program.define? 1 "X" 76).bind fun d ↦
          d.expansion.map (·.text)) = (some 1, some "g /* f(\"*/ //\") */ + g") := by
    decide +kernel
  obtain ⟨s, d, e, hs, hd, he, htext⟩ := Sample.exists_expansion Sample.openComment "X"
    "g /* f(\"*/ //\") */ + g" 76 hexpands
  refine ⟨s, d, e, hs, Sample.usesName_openComment, hd, he, fun depth t haccepted ↦ ?_⟩
  rw [← htext, haccepted] at hrefused
  cases hrefused

end CharacterScript
