import CharacterScript.Proofs.Relocation.Stretches

/-!
# A name of a file that gives way to a text in parentheses

A `Splice` is a file with a plain name in one of its items, and a text that is one expression. Put
in parentheses, the text takes the place of the name. `Splice.edit` is what this does to the phrases
of the file: what stands in front of the name stays, what is behind it moves along, and the name
becomes the phrase of the text.

## What is written

The new text is written with the edited phrases (`Splice.written_result`). The name is a stretch of
the file, so what is cut out of the new text on either side of it is what it was, and so is what is
cut out of the text in the parentheses (`Splice.captured_inserted`).

## Parentheses

The text is put in parentheses so that it stays one operand wherever the name stood. Its lexemes
are read behind the opening parenthesis as at the start of a text, and the closing one ends the
last of them, if that is no line comment.
-/

namespace CharacterScript

/-! ## Texts that are one expression

The phrase of a text is closed: nothing comes behind it, so it is whole in front of a parenthesis
as well. -/

/-- The phrase is all of the text. -/
def Phrase.Fills (p : Phrase) (text : String) : Prop :=
  ∃ stop, lex text = .ok (p.lexemes ++ [⟨.eof, stop⟩]) ∧ p.Whole 0 [⟨.eof, stop⟩]

/-- A text that reads as an expression is all of a phrase. -/
theorem exists_fills {text : String} {ts : List Lexeme} {e : Expr} (hlex : lex text = .ok ts)
    (hparse : parseExpression text ts = .ok e) : ∃ p : Phrase, p.Fills text ∧ p.tree text = e := by
  obtain ⟨body, rfl, hbody⟩ := (lex_tiles hlex).ends
  obtain ⟨⟨tree, rest⟩, hexpr, hend⟩ := Running.exceptBind_eq_ok.1 hparse
  obtain ⟨p, hts, htree, hwhole⟩ := Parser.exists_phrase_of_expr hexpr
  dsimp only at hend
  split at hend
  next stop rest =>
    obtain ⟨rfl, hrest⟩ := eq_of_append_eof (fun l hl ↦ (hbody l hl).1) p.noEof hts
    rw [← hrest] at hwhole
    exact ⟨p, ⟨_, hlex, hwhole⟩, htree.trans (Except.ok.inj hend)⟩
  next =>
    rw [List.append_nil] at hts
    exact absurd rfl ((hts ▸ p.noEof) _ List.mem_concat_self)
  next => exact absurd hend Parser.fail_ne_ok

/-- A phrase that is settled somewhere is settled wherever nothing comes next that could belong to
it. -/
theorem Phrase.Settled.closed {rest : List Lexeme} : ∀ {p : Phrase}, p.Settled rest → p.Closed
  | .number _ _, _ | .hex _ _, _ | .target _ _ _, _ => fun _ _ ↦ trivial
  | .name _ _, _ => fun _ hrest ↦ hrest.noOpening
  | .paren _ _ _, h | .calculation _ _ _ _, h => fun _ _ ↦ Phrase.Settled.of_head h
  | .call (.empty _ _), _ => fun _ _ ↦ trivial
  | .call (.full _ _ _), h => fun _ _ ↦ ArgsPhrase.Settled.of_head h
  | .not _ inner, h => fun rest hrest ↦
    ⟨hrest.stops, Phrase.Settled.closed (p := inner) h.2 rest hrest⟩
  | .binary _ _ _ right, h => fun rest hrest ↦
    ⟨Phrase.Settled.of_head h.1, Phrase.Settled.closed (p := right) h.2 rest hrest⟩

/-! ## Splices

The edit has the name as its only leaf that changes. That no other name is changed is seen by
places, since each lexeme has its own. -/

/-- A file with a plain name in one of its items, and a text that is one expression and leaves no
line comment open. -/
structure Splice (source : String) where
  /-- The items in front of the one with the name. -/
  before : List ItemPhrase
  /-- The item with the name. -/
  item : ItemPhrase
  /-- The items behind it. -/
  after : List ItemPhrase
  /-- What of the item stands in front of the name. -/
  left : List Part
  /-- The name. -/
  name : String
  /-- Where it stands. -/
  span : Span
  /-- What of the item stands behind the name. -/
  right : List Part
  /-- The text to put in. -/
  text : String
  /-- The expression it is. -/
  phrase : Phrase
  /-- The source is these items. -/
  written : WrittenAs source (before ++ item :: after)
  /-- The item is made of these parts. -/
  parts : item.parts = left ++ .name name span :: right
  /-- The text reads as the expression. -/
  fills : phrase.Fills text
  /-- A parenthesis behind the text is not part of a comment. -/
  text_ends : ¬ EndsInLineComment text

namespace Splice

variable {source : String} (S : Splice source)

def items : List ItemPhrase :=
  S.before ++ S.item :: S.after

/-- What stands in front of the name. -/
def front : List Part :=
  S.before.flatMap ItemPhrase.parts ++ S.left

/-- What stands behind the name. -/
def back : List Part :=
  S.right ++ S.after.flatMap ItemPhrase.parts

def result : String :=
  inlinedAt source S.span S.text

/-- Where the rest of the file starts in the new text. -/
def resume : Nat :=
  S.span.start + 2 + S.text.utf8ByteSize

/-- Where an offset goes. -/
def shifted (x : Nat) : Nat :=
  shift S.span.start S.span.stop S.resume x

/-- What comes in place of the name. -/
def inserted : Phrase :=
  .paren ⟨S.span.start, S.span.start + 1⟩
    (S.phrase.edit (.plain (Span.rebase 0 (S.span.start + 1))))
    ⟨S.span.start + 1 + S.text.utf8ByteSize, S.resume⟩

def edit : Edit where
  move := Span.map S.shifted
  leaf s span := if s = S.name ∧ span = S.span then S.inserted else .name s (span.map S.shifted)

theorem flatMap_parts_items :
    S.items.flatMap ItemPhrase.parts = S.front ++ .name S.name S.span :: S.back := by
  rw [items, List.flatMap_append, List.flatMap_cons, S.parts, front, back]
  simp

/-! ### Where the lexemes stand -/

theorem exists_lex : ∃ stop, lex source = .ok (S.front.flatMap Part.lexemes ++
    ⟨.name S.name, S.span⟩ :: (S.back.flatMap Part.lexemes ++ [⟨.eof, stop⟩])) := by
  obtain ⟨stop, hlex, -⟩ := S.written
  refine ⟨stop, ?_⟩
  rw [hlex, show S.before ++ S.item :: S.after = S.items from rfl, ← flatMap_items_parts,
    S.flatMap_parts_items, List.flatMap_append, List.flatMap_cons, Part.lexemes]
  simp

theorem exists_pieces : ∃ before spelled after, source.toList = before ++ (spelled ++ after) ∧
    S.span = ⟨byteLength before, byteLength before + byteLength spelled⟩ ∧
    S.result.toList = before ++ '(' :: (S.text.toList ++ ')' :: after) := by
  obtain ⟨stop, hlex⟩ := S.exists_lex
  obtain ⟨before, spelled, after, -, hsource, -, -, -, hspan, -⟩ :=
    (lex_eq_ok_iff.1 hlex).exists_token (l := ⟨.name S.name, S.span⟩) nofun rfl
  have hspan' : S.span = ⟨byteLength before, byteLength before + byteLength spelled⟩ := by
    rwa [Nat.zero_add] at hspan
  refine ⟨before, spelled, after, hsource, hspan', ?_⟩
  rw [result, hspan']
  exact toList_inlinedAt hsource

/-- The name is a stretch of the file. -/
def stretch : Stretch source S.result where
  front := S.front
  gone := [⟨.name S.name, S.span⟩]
  back := S.back
  span := S.span
  resume := S.resume
  lexes := S.exists_lex
  first := ⟨_, [], rfl, rfl⟩
  last := ⟨[], _, rfl, rfl⟩
  cut := by
    obtain ⟨before, spelled, after, hsource, hspan, hresult⟩ := S.exists_pieces
    refine ⟨before, spelled, after, '(' :: (S.text.toList ++ [')']), hsource, hspan,
      by simp [hresult], ?_⟩
    rw [resume, hspan, utf8ByteSize_eq_byteLength, byteLength_cons, byteLength_append,
      show '('.utf8Size = 1 from rfl, show byteLength [')'] = 1 from rfl]
    dsimp only
    omega

/-! ### What is written in the new text -/

theorem leaf_name : S.edit.leaf S.name S.span = S.inserted :=
  if_pos ⟨rfl, rfl⟩

theorem leaf_of_ne {s : String} {span : Span} (h : span ≠ S.span) :
    S.edit.leaf s span = .name s (span.map S.shifted) :=
  if_neg fun heq ↦ h heq.2

/-- A part that is not at the name is only moved. -/
theorem part_eq {part : Part} (h : ∀ l ∈ part.lexemes, l.span ≠ S.span) :
    S.edit.part part = part.lexemes.map S.edit.lexeme := by
  cases part with
  | name s span =>
    rw [Edit.part, S.leaf_of_ne (h _ (List.mem_singleton_self _))]
    rfl
  | calculation word opening inner closing =>
    exact Edit.part_plain S.edit.move (.calculation word opening inner closing)
  | lexeme l => rfl

theorem flatMap_front : S.front.flatMap S.edit.part = S.front.flatMap Part.lexemes := by
  refine S.stretch.flatMap_front fun part hpart ↦ S.part_eq fun l hl heq ↦ ?_
  exact absurd (S.stretch.front_lt (List.mem_flatMap.2 ⟨part, hpart, hl⟩)).1 (heq ▸ lt_irrefl _)

theorem flatMap_back : S.back.flatMap S.edit.part
    = (S.back.flatMap Part.lexemes).map (Lexeme.rebase S.span.stop S.resume) := by
  refine S.stretch.flatMap_back fun part hpart ↦ S.part_eq fun l hl heq ↦ ?_
  have hge := (S.stretch.back_ge (List.mem_flatMap.2 ⟨part, hpart, hl⟩)).1
  rw [heq] at hge
  exact absurd S.stretch.start_lt_stop (Nat.not_lt.2 hge)

theorem fits : S.edit.Fits := by
  intro s span
  by_cases h : s = S.name ∧ span = S.span
  · obtain ⟨rfl, rfl⟩ := h
    obtain ⟨stop, -, hwhole⟩ := S.fills
    rw [leaf_name]
    refine ⟨fun k ↦ hwhole.leveled.edit (Edit.plain_fits _), fun rest _ ↦ ?_⟩
    exact (hwhole.settled.closed _ (ended_closeParen ⟨0, 0⟩ rest)).edit (Edit.plain_fits _)
      sameNext_cons
  · have hleaf : S.edit.leaf s span = .name s (span.map S.shifted) := if_neg h
    rw [hleaf]
    exact ⟨fun _ ↦ trivial, fun _ hrest ↦ hrest⟩

/-- The new text is written with the edited phrases. -/
theorem written_result : WrittenAs S.result (S.items.map (ItemPhrase.edit S.edit)) := by
  obtain ⟨stop, hlex⟩ := S.exists_lex
  obtain ⟨stop', hwritten, hwhole⟩ := S.written
  obtain ⟨textStop, htext, -⟩ := S.fills
  have hresult := lex_inlinedAt hlex htext (fun l hl ↦ Token.isInner_iff.1 (S.phrase.inner l hl))
    S.text_ends
  have hinserted : S.inserted.lexemes = Punct.openParen.at ⟨S.span.start, S.span.start + 1⟩ ::
      (S.phrase.lexemes.map (Lexeme.rebase 0 (S.span.start + 1)) ++
        [Punct.closeParen.at ⟨S.span.start + 1 + S.text.utf8ByteSize, S.resume⟩]) := by
    rw [inserted, Phrase.lexemes, Phrase.lexemes_plain]
    rfl
  refine ⟨stop.rebase S.span.stop S.resume, ?_, hwhole.edit S.fits sameNext_cons⟩
  rw [flatMap_lexemes_edit, S.flatMap_parts_items, List.flatMap_append, List.flatMap_cons,
    S.flatMap_front, S.flatMap_back, Edit.part, S.leaf_name, hinserted]
  rw [List.map_append] at hresult
  simp only [List.append_assoc, List.cons_append, List.nil_append]
  exact hresult

/-! ### What is cut out of it -/

/-- What stands in the text is there, too. -/
theorem captured_inserted {x y : Nat} (hx : String.Pos.Raw.IsValid S.text ⟨x⟩)
    (hy : String.Pos.Raw.IsValid S.text ⟨y⟩) (hle : x ≤ y) :
    Parser.captured S.result (Span.rebase 0 (S.span.start + 1) ⟨x, y⟩)
      = Parser.captured S.text ⟨x, y⟩ := by
  obtain ⟨before, spelled, after, -, hspan, hresult⟩ := S.exists_pieces
  have hsize : y ≤ 0 + byteLength S.text.toList := by
    rw [Nat.zero_add, ← utf8ByteSize_eq_byteLength]
    exact hy.le_utf8ByteSize
  have hstart : S.span.start + 1 = byteLength (before ++ ['(']) := by
    rw [hspan, byteLength_append]
    rfl
  have hslice := @slice_rebase S.text S.result [] (before ++ ['(']) S.text.toList [] (')' :: after)
    (by simp) (by simp [hresult]) x y hx hy (Nat.zero_le _) hle hsize
  rw [Parser.captured, Parser.captured, hstart, ← hslice]
  rfl

end Splice

end CharacterScript
