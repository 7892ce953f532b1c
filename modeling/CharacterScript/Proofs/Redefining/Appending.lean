import CharacterScript.Proofs.DefinedExpressions
import CharacterScript.Proofs.Redefining.Lowering
import CharacterScript.Proofs.Relocation.Definitions

/-!
# A file behind another

Two files are put together with a line feed between them. The line feed goes on with nothing, and no
item starts with what could belong to an expression or to a number, so the whole is written with the
items of the one and then those of the other (`WrittenAs.append_line`).

## A definition

If the second file is a definition, the items in front of it stay the same in the same places, and
all of their code stands in front of the definition (`exists_readsAs_append`).

## Places

What stands in the first file keeps its place, so nothing has to be moved there. What stands in
the second moves by the length of the first and of the line feed. The two parts are edited by two
edits, of which one does nothing.
-/

namespace CharacterScript

variable {source more : String} {front ts : List Lexeme} {ps qs : List ItemPhrase} {i : ItemPhrase}

/-! ## Lexemes

The line feed ends the last token of the first file. It is needed because a line comment may be
the last thing in it, and because a name may be. -/

/-- A file behind another reads as it does alone, further behind, if it does not start with a
sign. -/
theorem lex_append_line {stop : Span} {l : Lexeme} (h : lex source = .ok (front ++ [⟨.eof, stop⟩]))
    (hfront : NoEof front) (hmore : lex more = .ok (l :: ts)) (hl : l.token ≠ .eof)
    (hsign : startsSigned more (l :: ts) = false) :
    lex (source ++ "\n" ++ more)
      = .ok (front ++ (l :: ts).map (Lexeme.rebase 0 (source.utf8ByteSize + 1))) := by
  obtain ⟨last, hpieces⟩ := (lex_eq_ok_iff.1 h).pieces hfront rfl
  have hbehind := (lex_eq_ok_iff.1 hmore).behind_any hl hsign last
    (0 + byteLength source.toList + byteLength ['\n'])
  have hline : Lexes last (0 + byteLength source.toList) (['\n'] ++ more.toList) _ :=
    .gap (.blank (by decide)) hbehind
  have hall := (hpieces.neutral (neutral_lineFeed more.toList) fun _ ↦
    noneNext_cons.2 rfl).lexes hline
  have hsplit : (source ++ "\n" ++ more).toList = source.toList ++ '\n' :: more.toList := by simp
  have hsize : source.utf8ByteSize + 1 = 0 + byteLength source.toList + byteLength ['\n'] := by
    rw [utf8ByteSize_eq_byteLength, Nat.zero_add]
    rfl
  rw [lex_eq_ok_iff, hsplit, hsize]
  exact hall

/-- No item starts with a sign. -/
theorem ItemPhrase.head?_ne_minus {l : Lexeme} {spelled : List Char} (hi : i.lexemes = l :: ts)
    (h : Spells l.token spelled) : spelled.head? ≠ some '-' := by
  cases i with
  | directive | define =>
    cases hi
    cases h
    all_goals nofun
  | global =>
    cases hi
    cases h
    decide
  | callable kind =>
    cases hi
    cases kind <;> cases h <;> decide

/-! ## Items -/

/-- Nothing that could belong to an expression comes next in front of an item. -/
theorem ItemPhrase.ended (i : ItemPhrase) (rest : List Lexeme) : Ended (i.lexemes ++ rest) := by
  cases i with
  | directive | global | define => exact ended_cons nofun nofun
  | callable kind => cases kind <;> exact ended_cons nofun nofun

theorem ended_items {rest : List Lexeme} (hrest : Ended rest) :
    Ended (ps.flatMap ItemPhrase.lexemes ++ rest) := by
  cases ps with
  | nil => exact hrest
  | cons i ps =>
    rw [List.flatMap_cons, List.append_assoc]
    exact i.ended _

/-- An item is whole in front of anything that could not belong to an expression. -/
theorem ItemPhrase.Whole.edit_ended {E : Edit} {rest rest' : List Lexeme} (h : i.Whole rest)
    (hE : E.Fits) (hrest' : Ended rest') : (i.edit E).Whole rest' := by
  cases i with
  | directive | global => trivial
  | define word s nameSpan body =>
    have hbody : body.Whole 0 rest := h
    exact ⟨hbody.leveled.edit (Edit.plain_fits _),
      (hbody.settled.closed _ hrest').edit (Edit.plain_fits _) rfl, hrest'.stops⟩
  | callable => exact ⟨h.1.edit, BlockPhrase.Whole.edit hE h.2⟩

/-- Files of whole items can be put together. -/
theorem ItemsWhole.append_edit {E : Edit} (hE : E.Fits) {rest rest' : List Lexeme}
    (hrest' : Ended rest') (hqs : ItemsWhole qs rest') :
    ∀ {ps : List ItemPhrase}, ItemsWhole ps rest →
    ItemsWhole (ps.map (ItemPhrase.edit E) ++ qs) rest'
  | [], _ => hqs
  | _ :: _, h => ⟨h.1.edit_ended hE (ended_items hrest'), ItemsWhole.append_edit hE hrest' hqs h.2⟩

theorem ItemPhrase.lexemes_plain (move : Span → Span) (i : ItemPhrase) :
    (i.edit (.plain move)).lexemes = i.lexemes.map (Edit.plain move).lexeme := by
  rw [lexemes_edit, ← flatMap_parts, List.map_flatMap]
  exact List.flatMap_congr fun part _ ↦ Edit.part_plain move part

theorem flatMap_lexemes_plain (move : Span → Span) (ps : List ItemPhrase) :
    (ps.map (ItemPhrase.edit (.plain move))).flatMap ItemPhrase.lexemes
      = (ps.flatMap ItemPhrase.lexemes).map (Edit.plain move).lexeme := by
  rw [List.flatMap_map, List.map_flatMap]
  exact List.flatMap_congr fun i _ ↦ i.lexemes_plain move

/-- What stays where it is. -/
def Edit.still : Edit :=
  .plain (Span.map id)

@[simp] theorem Edit.lexemes_still (i : ItemPhrase) : (i.edit Edit.still).lexemes = i.lexemes :=
  (i.lexemes_plain _).trans (List.map_id _)

/-- What stands on the lines behind `source`. -/
def Edit.behind (source : String) : Edit :=
  .plain (Span.map (· + (source.utf8ByteSize + 1)))

/-- A file and one behind it are written with the items of both. -/
theorem WrittenAs.append_line (h : WrittenAs source ps) (h' : WrittenAs more (i :: qs)) :
    WrittenAs (source ++ "\n" ++ more)
      (ps.map (ItemPhrase.edit .still) ++ (i :: qs).map (ItemPhrase.edit (.behind source))) := by
  obtain ⟨stop, hlex, hwhole⟩ := h
  obtain ⟨stop', hlex', hwhole'⟩ := h'
  obtain ⟨l, ls, hi, hl⟩ := i.exists_cons
  rw [List.flatMap_cons, hi, List.cons_append, List.cons_append] at hlex'
  have hsign : startsSigned more (l :: (ls ++ qs.flatMap ItemPhrase.lexemes ++ [⟨.eof, stop'⟩]))
      = false := by
    obtain ⟨gaps, spelled, rest, htext, -, hspells, -, hspan, -⟩ :=
      (lex_eq_ok_iff.1 hlex').exists_first hl
    rw [Bool.eq_false_iff, ne_eq, startsSigned_cons htext hspan]
    exact ItemPhrase.head?_ne_minus hi hspells
  have hall := lex_append_line hlex (noEof_flatMap ps) hlex' hl hsign
  have hbefore : (ps.map (ItemPhrase.edit .still)).flatMap ItemPhrase.lexemes
      = ps.flatMap ItemPhrase.lexemes :=
    (flatMap_lexemes_plain _ ps).trans (List.map_id _)
  have hbehind : ((i :: qs).map (ItemPhrase.edit (.behind source))).flatMap ItemPhrase.lexemes
      = (l :: ls ++ qs.flatMap ItemPhrase.lexemes).map
          (Lexeme.rebase 0 (source.utf8ByteSize + 1)) := by
    rw [Edit.behind, flatMap_lexemes_plain, List.flatMap_cons, hi]
    rfl
  refine ⟨stop'.rebase 0 (source.utf8ByteSize + 1), ?_,
    ItemsWhole.append_edit (Edit.plain_fits _) (ended_eof _ _)
      (hwhole'.edit (Edit.plain_fits _) sameNext_cons) hwhole⟩
  rw [hall, List.flatMap_append, hbefore, hbehind, List.append_assoc]
  simp [Lexeme.rebase]

/-! ## What stays -/

variable {m : Motion}

theorem captured_append_line {x y : Nat} (hx : String.Pos.Raw.IsValid source ⟨x⟩)
    (hy : String.Pos.Raw.IsValid source ⟨y⟩) (hle : x ≤ y) :
    Parser.captured (source ++ "\n" ++ more) ⟨x, y⟩ = Parser.captured source ⟨x, y⟩ := by
  have hsplit : (source ++ "\n" ++ more).toList = [] ++ (source.toList ++ '\n' :: more.toList) := by
    simp
  exact captured_within hsplit hx hy hle

theorem Edit.carries_still (hm : m.Free) (h : WrittenAs source ps) (hi : i ∈ ps) {part : Part}
    (hpart : part ∈ i.parts) : Edit.still.Carries m source (source ++ "\n" ++ more) part := by
  cases part with
  | name s at_ => exact hm.name s false
  | lexeme l => exact fun s _ ↦ hm.name s true
  | calculation word opening inner closing =>
    obtain ⟨stop, hlex, -⟩ := h
    have hparts : (i.parts.flatMap Part.lexemes).Sublist
        (ps.flatMap ItemPhrase.lexemes ++ [⟨.eof, stop⟩]) := by
      rw [i.flatMap_parts]
      exact (List.sublist_flatten_of_mem (List.mem_map_of_mem hi)).trans
        (List.sublist_append_left _ _)
    obtain ⟨hopening, hclosing, hle⟩ := Part.calculation_edges hlex hparts hpart
    obtain ⟨_, hopening⟩ := (lex_tiles hlex).stands hopening
    obtain ⟨_, hclosing⟩ := (lex_tiles hlex).stands hclosing
    exact ⟨captured_append_line hopening.stop hclosing.start hle, hm.calculation _⟩

/-- The items of the first file are the same in the whole. -/
theorem ItemPhrase.moves_still (h : WrittenAs source ps) (hi : i ∈ ps)
    (h' : WrittenAs (source ++ "\n" ++ more) qs) (hi' : i.edit .still ∈ qs) (top : Nat)
    (t : Table Define) : (i.tree source).Moves (definitionPlaces qs id)
      (Block.Inlined top (definitionPlaces qs id) t)
      ((i.edit .still).tree (source ++ "\n" ++ more)) := by
  have hqs : WrittenAs (source ++ "\n" ++ more) (qs.map id) := by rwa [List.map_id]
  refine ItemPhrase.moves_edit (fun {d d'} hd hd' ↦ ?_) ?_
  · obtain ⟨-, hedged⟩ := ItemPhrase.edged_define hd
    obtain ⟨hdefine, hedged'⟩ := ItemPhrase.edged_define hd'
    rw [← Edit.lexemes_still] at hedged
    refine ⟨?_, definitionPlaces_of_edged hi' hdefine hedged hedged'⟩
    cases i with
    | define word s nameSpan body =>
      cases hd
      cases hd'
      have hspan := body.span_tree_plain monotone_id source (source ++ "\n" ++ more)
      have hbody : (body.tree source).span.Edged (ItemPhrase.define word s nameSpan body).lexemes :=
        body.edged_span fun l hl ↦ by simp [ItemPhrase.lexemes, hl]
      obtain ⟨stop, hlex, -⟩ := h
      obtain ⟨hx, hy, hle⟩ := hbody.valid hlex fun l hl ↦
        List.mem_append_left _ (List.mem_flatMap.2 ⟨_, hi, hl⟩)
      exact (congrArg (Parser.captured _) hspan).trans (captured_append_line hx hy hle)
    | directive | global | callable => cases hd
  · rintro kind word s nameSpan params body rfl
    have hbody : ∀ {source : String} {params : ParamsPhrase} {word nameSpan : Span}
        {body : BlockPhrase}, ∀ r ∈ (body.tree source).spans,
        r.Edged (ItemPhrase.callable kind word s nameSpan params body).lexemes := by
      intro source params word nameSpan body r hr
      exact @ItemPhrase.edged source _ r (List.mem_cons_of_mem _ (List.mem_cons_of_mem _ hr))
    refine ⟨fun r hr r' hr' ↦ h'.alike_of_edged hqs hi' rfl ?_ (hbody r' hr'),
      BlockPhrase.moves_edit (Motion.free_inlining _ _).place fun part hpart ↦ ?_⟩
    · rw [Edit.lexemes_still]
      exact hbody r hr
    · exact Edit.carries_still (Motion.free_inlining _ _) h hi
        (by simp [ItemPhrase.parts, hpart])

/-! ## A definition -/

/-- The text of a definition that is moved behind a file. -/
theorem captured_behind {r : Span} {stop : Span} (hlex : lex more = .ok (ts ++ [⟨.eof, stop⟩]))
    (hr : r.Edged ts) :
    Parser.captured (source ++ "\n" ++ more) (r.map (· + (source.utf8ByteSize + 1)))
      = Parser.captured more r := by
  obtain ⟨hstart, hstop, hle⟩ := hr.valid hlex (List.subset_append_left _ _)
  have hsplit : (source ++ "\n" ++ more).toList =
      source.toList ++ ['\n'] ++ (more.toList ++ []) := by
    simp
  have hsize : source.utf8ByteSize + 1 = byteLength (source.toList ++ ['\n']) := by
    rw [byteLength_append, utf8ByteSize_eq_byteLength]
    rfl
  rw [hsize]
  exact captured_within hsplit hstart hstop hle

/-- A definition is one item. -/
theorem exists_writtenAs_definition {name text : String} {e : Expr} (hname : IsIdentifier name)
    (hlex : lex text = .ok ts) (hparse : parseExpression text ts = .ok e)
    (hsign : startsSigned text ts = false) : ∃ word nameSpan body,
      WrittenAs (definition name text) [.define word name nameSpan body] ∧
      Parser.captured (definition name text) (body.tree (definition name text)).span
        = Parser.captured text e.span := by
  obtain ⟨qs, hqs, htrees⟩ := readsAs_iff.1 (readsAs_definition hname hlex hparse hsign)
  obtain ⟨i, rfl⟩ := List.length_eq_one_iff.1 (by simpa using congrArg List.length htrees)
  have htree := (List.cons.inj htrees).1
  cases i with
  | directive | global | callable => cases htree
  | define word s nameSpan body =>
    have hdecl := Item.define.inj htree
    obtain rfl : s = name := congrArg (·.name) hdecl
    exact ⟨word, nameSpan, body, hqs, congrArg (·.text) hdecl⟩

/-- A file with a definition behind it: the items in front are the same, all code is in front of the
definition, and the text of the definition is the expression. -/
theorem exists_readsAs_append {items : List Item} {name text : String} {e : Expr}
    (h : ReadsAs source items) (hname : IsIdentifier name) (hlex : lex text = .ok ts)
    (hparse : parseExpression text ts = .ok e) (hsign : startsSigned text ts = false) :
    ∃ items' d, ReadsAs (source ++ "\n" ++ definition name text) (items' ++ [.define d]) ∧
      d.name = name ∧ d.text = Parser.captured text e.span ∧
      (∀ c, .callable c ∈ items → Before d.span.start c.body.spans) ∧
      ∃ place, ∀ top t, List.Forall₂ (Item.Moves place (Block.Inlined top place t))
        (items ++ [.define d]) (items' ++ [.define d]) := by
  obtain ⟨ps, hps, rfl⟩ := readsAs_iff.1 h
  obtain ⟨word, nameSpan, body, hdefinition, htext⟩ :=
    exists_writtenAs_definition hname hlex hparse hsign
  have hall := hps.append_line hdefinition
  set last := (ItemPhrase.define word name nameSpan body).edit (.behind source) with hlast
  set whole := source ++ "\n" ++ definition name text
  obtain ⟨d, hd⟩ : ∃ d, last.tree whole = .define d := ⟨_, rfl⟩
  have hedged := (ItemPhrase.edged_define hd).2
  obtain ⟨l, hl, hstart⟩ := hedged.start
  refine ⟨(ps.map (ItemPhrase.edit .still)).map (ItemPhrase.tree whole), d,
    readsAs_iff.2 ⟨_, hall, ?_⟩, ?_, ?_, fun c hc r hr ↦ ?_,
    definitionPlaces (ps.map (ItemPhrase.edit .still) ++ [last]) id, fun top t ↦ ?_⟩
  · rw [List.map_append, List.map_singleton, List.map_singleton, ← hlast, hd]
  · cases hd
    rfl
  -- the text is cut out where the expression stands, so it is that of the definition by itself
  · cases hd
    obtain ⟨stop, hlex', -⟩ := hdefinition
    rw [List.flatMap_singleton] at hlex'
    have hbody : (body.tree (definition name text)).span.Edged
        (ItemPhrase.define word name nameSpan body).lexemes :=
      body.edged_span fun l hl ↦ by simp [ItemPhrase.lexemes, hl]
    have hspan := body.span_tree_plain (f := (· + (source.utf8ByteSize + 1)))
      (fun x y hxy ↦ Nat.add_le_add_right hxy _) (definition name text) whole
    exact (congrArg (Parser.captured whole) hspan).trans ((captured_behind hlex' hbody).trans htext)
  -- any place in a body has a lexeme, and all lexemes of the file are in front of the definition
  · obtain ⟨i, hi, htree⟩ := List.mem_map.1 hc
    have hr' : r.Edged i.lexemes := @ItemPhrase.edged source i r
      (htree ▸ List.mem_cons_of_mem _ (List.mem_cons_of_mem _ hr))
    rw [← Edit.lexemes_still] at hr'
    obtain ⟨m, hm, hm'⟩ := hr'.start
    obtain ⟨pre, post, rfl⟩ := List.append_of_mem hi
    rw [← hstart, ← hm']
    rw [List.map_append, List.map_cons, List.append_assoc, List.cons_append] at hall
    exact hall.start_lt (List.mem_append_right _ (List.mem_singleton_self _)) hm hl
  · rw [List.map_map]
    refine List.rel_append ?_ (.cons ⟨d, rfl, rfl, rfl,
      definitionPlaces_of_edged (List.mem_append_right _ (List.mem_singleton_self _)) rfl hedged
        hedged⟩ .nil)
    rw [List.forall₂_map_left_iff, List.forall₂_map_right_iff, List.forall₂_same]
    exact fun i hi ↦ i.moves_still hps hi hall
      (List.mem_append_left _ (List.mem_map_of_mem hi)) top t

end CharacterScript
