import CharacterScript.Proofs.Comments.Skipped
import CharacterScript.Proofs.Rewording.Layers

/-!
# What a text reads as without a comment

A text with a space in the place of a comment is written with the same phrases, moved along, if it
is written with any (`SkippedComment.written_result`, `SkippedComment.exists_written`). The same
holds of a text that is one expression.

The trees are the same up to places if the comment stands in no calculation
(`SkippedComment.answers_read`, `SkippedComment.forall₂_moves`): the argument of a calculation is
kept as it is written, with its comments. So is the text of a definition, which may differ by the
comment; it is put into the items here (`Item.withText`).

## The way back

A text without the comment has fewer ways to go wrong only in one place, the `else` and its `if`.
Apart from that a reading of either text gives one of the other, so nothing is assumed of the text
with the comment but that there is a comment. For this the lexemes are moved there and back, and
the two moves undo each other on all places beside the comment.
-/

namespace CharacterScript

open Running

/-! ## Phrases at other places -/

section

variable {source source' : String} {move : Span → Span} {ts : List Lexeme}

theorem flatMap_part_plain (parts : List Part) : parts.flatMap (Edit.plain move).part
    = (parts.flatMap Part.lexemes).map (Edit.plain move).lexeme := by
  rw [List.map_flatMap]
  exact List.flatMap_congr fun part _ ↦ Edit.part_plain move part

/-- A text with the same tokens at other places is written with the same phrases there. -/
theorem WrittenAs.moved {ps : List ItemPhrase} (h : WrittenAs source ps)
    (hlex : lex source = .ok ts)
    (hlex' : lex source' = .ok (ts.map (Edit.plain move).lexeme)) :
    WrittenAs source' (ps.map (ItemPhrase.edit (.plain move))) := by
  obtain ⟨stop, hps, hwhole⟩ := h
  cases hps.symm.trans hlex
  refine ⟨move stop, ?_, hwhole.edit (Edit.plain_fits move) sameNext_cons⟩
  rw [hlex', flatMap_lexemes_edit, flatMap_part_plain, flatMap_items_parts, List.map_append]
  rfl

/-- The parts of the items stand in the text one behind the other. -/
theorem WrittenAs.parts_sublist {ps : List ItemPhrase} (h : WrittenAs source ps)
    (hlex : lex source = .ok ts) :
      ((ps.flatMap ItemPhrase.parts).flatMap Part.lexemes).Sublist ts := by
  obtain ⟨stop, hps, -⟩ := h
  cases hps.symm.trans hlex
  rw [flatMap_items_parts]
  exact List.sublist_append_left _ _

theorem Phrase.Fills.parts_sublist {p : Phrase} (h : p.Fills source) (hlex : lex source = .ok ts) :
    (p.parts.flatMap Part.lexemes).Sublist ts := by
  obtain ⟨stop, hp, -⟩ := h
  cases hp.symm.trans hlex
  rw [p.flatMap_parts]
  exact List.sublist_append_left _ _

theorem Phrase.Fills.moved {p : Phrase} (h : p.Fills source) (hlex : lex source = .ok ts)
    (hlex' : lex source' = .ok (ts.map (Edit.plain move).lexeme)) :
    (p.edit (.plain move)).Fills source' := by
  obtain ⟨stop, hp, hwhole⟩ := h
  cases hp.symm.trans hlex
  refine ⟨move stop, ?_, hwhole.edit (Edit.plain_fits move) sameNext_cons⟩
  rw [hlex', Phrase.lexemes_plain, List.map_append]
  rfl

end

namespace SkippedComment

variable {source : String} (C : SkippedComment source) {ts : List Lexeme}

/-- The comment stands in the argument of a calculation. -/
def Within (part : Part) : Prop :=
  ∃ word opening inner closing, part = .calculation word opening inner closing ∧
    opening.stop ≤ C.start ∧ C.stop ≤ closing.start

/-- Nothing is in a calculation if there is none. -/
theorem not_within (hts : ∀ l ∈ ts, l.token ≠ .calcWord) {ps : List Part}
    (hps : (ps.flatMap Part.lexemes).Sublist ts) : ∀ part ∈ ps, ¬ C.Within part := by
  rintro _ hpart ⟨word, opening, inner, closing, rfl, -⟩
  have hword : (⟨.calcWord, word⟩ : Lexeme) ∈ ps.flatMap Part.lexemes :=
    List.mem_flatMap.2 ⟨_, hpart, by simp [Part.lexemes, Phrase.lexemes]⟩
  exact hts _ (hps.subset hword) rfl

section

variable (helse : ¬ C.PartsElseIf)

include helse

/-! ## Tokens

The lexemes behind the comment are moved by one distance, and none of them stands in the comment. -/

theorem lex_result (h : lex source = .ok ts) : lex C.result = .ok (ts.map C.edit.lexeme) := by
  obtain ⟨ts', hlex, hresult, -⟩ | ⟨e, e', he, -⟩ := C.lex_cases helse
  · cases hlex.symm.trans h
    exact hresult
  · cases he.symm.trans h

theorem clear_of_lex (h : lex source = .ok ts) :
    ∀ l ∈ ts, C.Clear l ∧ l.span.start ≤ l.span.stop := by
  obtain ⟨ts', hlex, -, hclear⟩ | ⟨e, e', he, -⟩ := C.lex_cases helse
  · cases hlex.symm.trans h
    exact hclear
  · cases he.symm.trans h

theorem exists_lex {ts' : List Lexeme} (h : lex C.result = .ok ts') :
    ∃ ts, lex source = .ok ts ∧ ts' = ts.map C.edit.lexeme := by
  obtain ⟨ts, hlex, hresult, -⟩ | ⟨e, e', -, he'⟩ := C.lex_cases helse
  · cases hresult.symm.trans h
    exact ⟨ts, hlex, rfl⟩
  · cases he'.symm.trans h

/-- The tokens can be moved back to their places. -/
theorem lex_restore (h : lex source = .ok ts) :
    lex source = .ok ((ts.map C.edit.lexeme).map C.restore.lexeme) := by
  rw [h, List.map_map]
  congr 1
  refine (List.map_id _).symm.trans (List.map_congr_left fun l hl ↦ ?_)
  obtain ⟨hclear, hle⟩ := C.clear_of_lex helse h l hl
  show l = ⟨l.token, ⟨C.unshifted (C.shifted l.span.start), C.unshifted (C.shifted l.span.stop)⟩⟩
  rw [C.unshifted_shifted (hclear.imp hle.trans id),
    C.unshifted_shifted (hclear.imp id fun hstop ↦ hstop.trans hle)]

/-! ## Phrases -/

theorem written_result {ps : List ItemPhrase} (h : WrittenAs source ps) :
    WrittenAs C.result (ps.map (ItemPhrase.edit C.edit)) := by
  have ⟨stop, hlex, _⟩ := h
  exact h.moved hlex (C.lex_result helse hlex)

theorem exists_written {ps : List ItemPhrase} (h : WrittenAs C.result ps) :
    ∃ ps, WrittenAs source ps := by
  have ⟨stop, hlex', _⟩ := h
  obtain ⟨ts, hlex, hts⟩ := C.exists_lex helse hlex'
  exact ⟨_, h.moved (hts ▸ hlex') (C.lex_restore helse hlex)⟩

theorem fills_result {p : Phrase} (h : p.Fills source) : (p.edit C.edit).Fills C.result := by
  have ⟨stop, hlex, _⟩ := h
  exact h.moved hlex (C.lex_result helse hlex)

theorem exists_fills {p : Phrase} (h : p.Fills C.result) : ∃ p : Phrase, p.Fills source := by
  have ⟨stop, hlex', _⟩ := h
  obtain ⟨ts, hlex, hts⟩ := C.exists_lex helse hlex'
  exact ⟨_, h.moved (hts ▸ hlex') (C.lex_restore helse hlex)⟩

/-! ## Trees

Trees carry the places of their nodes and texts that were cut out of the source. The places are
moved. The texts are the same where the comment does not stand in them, which is the case to be
settled for calculations and definitions. -/

/-- The argument of a calculation stays what it was if the comment does not stand in it. -/
theorem captured_calculation (hlex : lex source = .ok ts) {ps : List Part}
    (hps : (ps.flatMap Part.lexemes).Sublist ts) {word opening : Span} {inner : Phrase}
    {closing : Span}
    (hpart : .calculation word opening inner closing ∈ ps)
    (hout : ¬ C.Within (.calculation word opening inner closing)) :
    Parser.captured C.result ⟨(opening.map C.shifted).stop, (closing.map C.shifted).start⟩
      = Parser.captured source ⟨opening.stop, closing.start⟩ := by
  obtain ⟨hopening, hclosing, hle⟩ := Part.calculation_edges hlex hps hpart
  obtain ⟨_, hstands⟩ := (lex_tiles hlex).stands hopening
  obtain ⟨_, hstands'⟩ := (lex_tiles hlex).stands hclosing
  refine captured_shift C.source_eq C.result_eq C.start_lt_stop hstands.stop hstands'.start hle ?_
  obtain ⟨hclear, hwidth⟩ := C.clear_of_lex helse hlex _ hopening
  obtain ⟨hclear', hwidth'⟩ := C.clear_of_lex helse hlex _ hclosing
  obtain hfront | hback := hclear
  · obtain hfront' | hback' := hclear'
    · exact .inl (hwidth'.trans hfront')
    · exact absurd ⟨word, opening, inner, closing, rfl, hfront, hback'⟩ hout
  · exact .inr (hback.trans hwidth)

theorem carries {m : Motion} (hm : m.Free) (hlex : lex source = .ok ts) {ps : List Part}
    (hps : (ps.flatMap Part.lexemes).Sublist ts) {part : Part} (hpart : part ∈ ps)
    (hout : ¬ C.Within part) : C.edit.Carries m source C.result part :=
  Edit.carries_plain hm fun heq ↦
    C.captured_calculation helse hlex hps (heq ▸ hpart) (heq ▸ hout)

/-! ### Expressions -/

/-- A text reads as an expression with the comment as without it, if that stands in no
calculation. -/
theorem answers_read (hout : ∀ p : Phrase, p.Fills source → ∀ part ∈ p.parts, ¬ C.Within part)
    (name name' : String) (pos pos' : Position) :
    Answers (fun e e' ↦ e.tree.Moves .same e'.tree) (Expansion.read name pos source)
      (Expansion.read name' pos' C.result) := by
  rw [Expansion.read, Expansion.read]
  obtain ⟨ts, hlex, hlex', -⟩ | ⟨e, e', hlex, hlex'⟩ := C.lex_cases helse
  · rw [hlex, hlex']
    dsimp only
    cases hparse : parseExpression source ts with
    | ok e =>
      obtain ⟨p, hp, rfl⟩ := CharacterScript.exists_fills hlex hparse
      obtain ⟨ts', hts', hparse'⟩ := (C.fills_result helse hp).reads
      cases hts'.symm.trans hlex'
      rw [hparse']
      exact Phrase.moves_tree (fun _ _ ↦ trivial) fun part hpart ↦ C.carries helse
        Motion.free_same hlex (hp.parts_sublist hlex) hpart (hout p hp part hpart)
    | error e =>
      cases hparse' : parseExpression C.result (ts.map C.edit.lexeme) with
      | ok e' =>
        obtain ⟨p', hp', -⟩ := CharacterScript.exists_fills hlex' hparse'
        obtain ⟨p, hp⟩ := C.exists_fills helse hp'
        obtain ⟨ts', hts', hparse''⟩ := hp.reads
        cases hts'.symm.trans hlex
        cases hparse.symm.trans hparse''
      | error e' => exact rfl
  · rw [hlex, hlex']
    exact rfl

end

end SkippedComment

/-! ## Texts that are read alike -/

/-- The second text is the first with a space in the place of a comment that has no part in what the
text reads as: it is not what keeps an `else` apart from an `if`, and stands in no calculation. -/
def Blanked (text text' : String) : Prop :=
  ∃ C : SkippedComment text, ¬ C.PartsElseIf ∧
    (∀ p : Phrase, p.Fills text → ∀ part ∈ p.parts, ¬ C.Within part) ∧ C.result = text'

theorem SkippedComment.blanked {text : String} (C : SkippedComment text) {ts : List Lexeme}
    (helse : ¬ C.PartsElseIf) (hlex : lex text = .ok ts) (hts : ∀ l ∈ ts, l.token ≠ .calcWord) :
    Blanked text C.result :=
  ⟨C, helse, fun _ hp ↦ C.not_within hts (hp.parts_sublist hlex), rfl⟩

/-- Texts are read alike if one becomes the other by putting blanks in the place of such comments
and comments in the place of such blanks. -/
theorem readsAlike_blanked : Expansion.ReadsAlike (Relation.EqvGen Blanked) := by
  intro text text' h
  induction h with
  | rel text text' h =>
    intro name pos pos'
    obtain ⟨C, helse, hout, rfl⟩ := h
    exact (C.answers_read helse hout name name pos pos').imp Expansion.alike_of_moves
  | refl text =>
    intro name pos pos'
    refine (answers_of_coded (Expansion.coded_read name pos pos' text)).imp ?_
    rintro e _ rfl
    exact .refl e
  | symm _ _ _ ih => exact fun name pos pos' ↦ (ih name pos' pos).symm Expansion.Alike.symm
  | trans _ _ _ _ _ ih ih' =>
    exact fun name pos pos' ↦ (ih name pos pos).trans (ih' name pos pos') Expansion.Alike.trans

/-! ## Items -/

namespace SkippedComment

variable {source : String} (C : SkippedComment source)

/-- The items with the texts that definitions have in the new text. -/
def reworded (ps : List ItemPhrase) : List Item :=
  ps.map fun i ↦ (i.tree source).withText ((i.edit C.edit).tree C.result).text

theorem forall₂_reworded (ps : List ItemPhrase) :
    List.Forall₂ Item.Reworded (ps.map (ItemPhrase.tree source)) (C.reworded ps) := by
  rw [reworded, List.forall₂_map_left_iff, List.forall₂_map_right_iff, List.forall₂_same]
  exact fun i _ ↦ ⟨_, rfl⟩

section

variable (helse : ¬ C.PartsElseIf) {ps : List ItemPhrase} (hps : WrittenAs source ps)
  {i : ItemPhrase}
  (hi : i ∈ ps)

include helse hps hi

/-- A body sees the definitions that it saw. -/
theorem alike {d d' : CallableDecl} (htree : i.tree source = .callable d)
    (htree' : (i.edit C.edit).tree C.result = .callable d') :
    ∀ r ∈ d.body.spans, ∀ r' ∈ d'.body.spans,
      (definitionPlaces ps (ItemPhrase.edit C.edit)).Alike r.start r'.start := by
  have hitem : i.isDefine = false := by
    cases i with
    | define => cases htree
    | directive | global | callable => rfl
  intro r hr r' hr'
  exact hps.alike_of_edged (C.written_result helse hps) hi hitem (ItemPhrase.edged_body htree r hr)
    (ItemPhrase.edged_body htree' r' hr')

theorem carries_item {m : Motion} (hm : m.Free) {part : Part} (hpart : part ∈ i.parts)
    (hout : ¬ C.Within part) : C.edit.Carries m source C.result part := by
  have ⟨_, hlex, _⟩ := hps
  exact C.carries helse hm hlex (hps.parts_sublist hlex)
    (List.mem_flatMap.2 ⟨i, hi, hpart⟩) hout

/-- With the text of a definition put in, an item is the same up to places, if the comment stands in
no calculation of it. -/
theorem item_moves (hout : ∀ part ∈ i.parts, ¬ C.Within part) (top : Nat) (t : Table Define) :
    ((i.tree source).withText ((i.edit C.edit).tree C.result).text).Moves
      (definitionPlaces ps (ItemPhrase.edit C.edit))
      (Block.Inlined top (definitionPlaces ps (ItemPhrase.edit C.edit)) t)
      ((i.edit C.edit).tree C.result) := by
  cases i with
  | directive d path span => exact ⟨d, path, _, rfl⟩
  | global word s span => exact ⟨_, rfl⟩
  | define word s nameSpan body =>
    obtain ⟨his, hedged⟩ := ItemPhrase.edged_define
      (rfl : (ItemPhrase.define word s nameSpan body).tree source = _)
    obtain ⟨-, hedged'⟩ := ItemPhrase.edged_define
      (rfl : ((ItemPhrase.define word s nameSpan body).edit C.edit).tree C.result = _)
    exact ⟨_, rfl, rfl, rfl, definitionPlaces_of_edged hi his hedged hedged'⟩
  | callable kind word s nameSpan params body =>
    have halike := C.alike helse hps hi rfl rfl
    refine ItemPhrase.moves_edit (i := .callable kind word s nameSpan params body)
      (fun {d d'} hd _ ↦ ?_) ?_
    · cases hd
    · rintro _ _ _ _ _ _ ⟨⟩
      refine ⟨halike, BlockPhrase.moves_edit (Motion.free_inlining _ _).place fun part hpart ↦ ?_⟩
      have hmem : part ∈ (ItemPhrase.callable kind word s nameSpan params body).parts := by
        simp [ItemPhrase.parts, hpart]
      exact C.carries_item helse hps hi (Motion.free_inlining _ _) hmem (hout part hmem)

end

/-- With the texts of the definitions put in, the items are the same up to places, if the comment
stands in no calculation. -/
theorem forall₂_moves (helse : ¬ C.PartsElseIf) {ps : List ItemPhrase} (hps : WrittenAs source ps)
    (hout : ∀ i ∈ ps, ∀ part ∈ i.parts, ¬ C.Within part) (top : Nat) (t : Table Define) :
    List.Forall₂ (Item.Moves (definitionPlaces ps (ItemPhrase.edit C.edit))
        (Block.Inlined top (definitionPlaces ps (ItemPhrase.edit C.edit)) t))
      (C.reworded ps) ((ps.map (ItemPhrase.edit C.edit)).map (ItemPhrase.tree C.result)) := by
  rw [reworded, List.map_map, List.forall₂_map_left_iff, List.forall₂_map_right_iff,
    List.forall₂_same]
  exact fun i hi ↦ C.item_moves helse hps hi (hout i hi) top t

end SkippedComment

end CharacterScript
