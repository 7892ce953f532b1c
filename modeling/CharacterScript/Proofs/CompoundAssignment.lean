import CharacterScript.Proofs.Compound.Layers
import CharacterScript.Proofs.Compound.Texts
import CharacterScript.Proofs.LaterDefinitions

/-!
# A compound assignment is its expansion

Where a layer says `x op= e`, it can as well say `x = x op (e)` (`compound_eq_written_out`). The
texts are accepted or refused together, and to the same code.

## Two readings of a name

The two readings of `x` are the point: a target is looked up among the variables, but a name in an
expression may be that of a definition. On trees this is settled, for all assignments of a layer at
once (`Session.Reachable.compile_spelled`). So both texts are compared with all of their assignments
spelled out: then they differ in nothing but places (`Compound.Rewritten.forall₂_moves`).

## From one assignment to a layer

The statement is found in the tree, and from there in the text, with the parts of the file on both
sides. The new text is the old one with other characters in that place, and it is written with the
same phrases but for the statement. Both directions are needed: a new text that can be read was
written with such phrases as well.
-/

namespace CharacterScript

open Running

/-! ## Items -/

/-- No item of a file stands in it twice. -/
theorem WrittenAs.nodup {source : String} {ps : List ItemPhrase} (h : WrittenAs source ps) :
    ps.Nodup := by
  obtain ⟨stop, hlex, -⟩ := h
  have hincreasing := (List.pairwise_append.1 (lex_tiles hlex).increasing).1
  refine (List.pairwise_flatMap.1 hincreasing).2.imp ?_
  rintro i _ hlt rfl
  obtain ⟨l, ls, hi, -⟩ := i.exists_cons
  have hl : l ∈ i.lexemes := hi ▸ List.mem_cons_self
  exact (hlt l hl l hl).1.false

/-- Items whose bodies are the same when spelled out are the same when spelled out. -/
theorem Item.Moves.spelled {place : Offsets} {same : Block → Block → Prop} {i i' : Item}
    (h : i.Moves place (fun b b' ↦ same b.spelled b'.spelled) i') :
    i.spelled.Moves place same i'.spelled := by
  cases i with
  | directive =>
    obtain ⟨d, path, span, rfl⟩ := h
    exact ⟨d, path, span, rfl⟩
  | global =>
    obtain ⟨span, rfl⟩ := h
    exact ⟨span, rfl⟩
  | define =>
    obtain ⟨d', rfl, hd⟩ := h
    exact ⟨d', rfl, hd⟩
  | callable =>
    obtain ⟨d', rfl, hd⟩ := h
    exact ⟨d'.spelled, rfl, hd.kind, hd.name, hd.params, hd.body⟩

namespace Compound

variable {source : String} (C : Compound source)

/-! ## The statement -/

/-- The assignment can be written out wherever it stands. -/
theorem replaces (nameSpan sign left place opening closing : Span) :
    C.stmt.Replaces (C.expanded nameSpan sign left place opening closing) where
  sameNext _ _ := rfl
  whole {rest rest'} h hnext _ := by
    obtain ⟨-, hvalue⟩ : _ ∧ C.value.Whole 0 rest := h
    have hsettled := (hvalue.settled.closed _ (ended_closeParen closing rest')).edit
      (Edit.plain_fits (Span.rebase C.valueSpan.start C.inside)) rfl
    exact ⟨nofun, ⟨Nat.zero_le _, trivial, hvalue.leveled.edit (Edit.plain_fits _)⟩,
      ⟨noOpening_operator _ _ _, hsettled⟩, hnext.stopsBelow hvalue.stops⟩

/-- Spelled out, the assignment is what is written for it. -/
theorem moves_expanded {m : Motion} (hm : m.Free)
    (nameSpan sign left place opening closing : Span) :
    (C.stmt.tree source).spelled.Moves m
      ((C.expanded nameSpan sign left place opening closing).tree C.result).spelled := by
  have hvalue := Phrase.moves_edit hm.place (fun _ ↦ C.carries_value hm) C.valueSpan
    (opening.merge closing)
  rw [valueSpan, Expr.withSpan_span] at hvalue
  exact .assign (.binary (.name (hm.name _ _ _ _)) hvalue)

/-! ## The file

The items of the two files correspond one to one. All but one have only moved, and of that one
only the body has changed. -/

/-- The callable with another body, all else moved along. -/
def itemWith (body : BlockPhrase) : ItemPhrase :=
  .callable C.kind (C.stretch.edit.move C.word) C.title (C.stretch.edit.move C.titleSpan)
    (C.params.edit C.stretch.edit) body

/-- How the items change: in the body of the callable the assignment gives way to what the new text
has there, and all else is moved along. -/
structure Rewritten (f : ItemPhrase → ItemPhrase) (s : StmtPhrase) (body : BlockPhrase) : Prop where
  /-- All other items are only moved along. -/
  other : ∀ i, i ≠ C.item → f i = i.edit C.stretch.edit
  /-- The item with the assignment gets the new body. -/
  item : f C.item = C.itemWith body
  /-- In that body the one statement is exchanged and the parts on both sides of it are moved along.
  -/
  swap : BlockPhrase.Swap C.stretch.edit C.stmt s C.left C.right C.body body
  /-- The new statement is the assignment written out. -/
  expanded : ∃ nameSpan sign left place opening closing,
    s = C.expanded nameSpan sign left place opening closing
  /-- The lexer gets the new statement where the old one was, and behind it the same lexemes as
  before. -/
  lexes : ∃ stop, lex C.result = .ok (C.front.flatMap Part.lexemes ++ (s.lexemes ++
    ((C.back.flatMap Part.lexemes).map (Lexeme.rebase C.span.stop C.resume) ++ [⟨.eof, stop⟩])))

theorem exists_rewritten : ∃ f s body, C.Rewritten f s body := by
  classical
  obtain ⟨before, gap, inner, after, h⟩ := C.exists_cut
  obtain ⟨nameSpan, sign, left, place, opening, closing, stop, hlex⟩ := h.lex_result
  obtain ⟨body, hswap⟩ := C.swap C.stretch.edit
    (C.expanded nameSpan sign left place opening closing)
  exact ⟨Function.update (ItemPhrase.edit C.stretch.edit) C.item (C.itemWith body), _, body,
    fun i hi ↦ Function.update_of_ne hi _ _, Function.update_self .., hswap,
    ⟨_, _, _, _, _, _, rfl⟩, stop, hlex⟩

theorem ne_item {i : ItemPhrase} (hi : i ∈ C.before ++ C.after) : i ≠ C.item := by
  have hnodup := List.nodup_middle.1 C.written_items.nodup
  rintro rfl
  exact (List.nodup_cons.1 hnodup).1 hi

theorem mem_front {part : Part} (h : part ∈ C.left) : part ∈ C.front :=
  List.mem_append_right _ (List.mem_append_right _ h)

theorem mem_back {part : Part} (h : part ∈ C.right) : part ∈ C.back :=
  List.mem_append_left _ h

/-- Every other item is in front of the assignment or behind it. -/
theorem parts_side {i : ItemPhrase} (hi : i ∈ C.items) (hne : i ≠ C.item) :
    i.parts ⊆ C.front ∨ i.parts ⊆ C.back := by
  obtain hi | hi := List.mem_append.1 hi
  · exact .inl fun _ hpart ↦ List.mem_append_left _ (List.mem_flatMap.2 ⟨i, hi, hpart⟩)
  · have hi := List.mem_of_ne_of_mem hne hi
    exact .inr fun _ hpart ↦ List.mem_append_right _ (List.mem_flatMap.2 ⟨i, hi, hpart⟩)

namespace Rewritten

variable {C} {f : ItemPhrase → ItemPhrase} {s : StmtPhrase} {body : BlockPhrase}
  (h : C.Rewritten f s body)

include h

theorem lexemes_item : (f C.item).lexemes = C.head.flatMap C.stretch.edit.part ++
    (C.left.flatMap C.stretch.edit.part ++ (s.lexemes ++ C.right.flatMap C.stretch.edit.part)) := by
  rw [h.item, ← h.swap.lexemes_eq]
  simp [itemWith, head, ItemPhrase.lexemes, Edit.part, Edit.lexeme, ParamsPhrase.lexemes_edit,
    Keyword.at]

theorem lexemes_other {ps : List ItemPhrase} (hps : ps ⊆ C.before ++ C.after) :
    (ps.map f).flatMap ItemPhrase.lexemes
      = (ps.flatMap ItemPhrase.parts).flatMap C.stretch.edit.part := by
  rw [← flatMap_lexemes_edit]
  exact congrArg _ (List.map_congr_left fun i hi ↦ h.other i (C.ne_item (hps hi)))

theorem lexemes_map : (C.items.map f).flatMap ItemPhrase.lexemes
    = C.front.flatMap Part.lexemes ++ (s.lexemes ++
      (C.back.flatMap Part.lexemes).map (Lexeme.rebase C.span.stop C.resume)) := by
  have hfront : C.front.flatMap C.stretch.edit.part = C.front.flatMap Part.lexemes :=
    C.stretch.flatMap_front fun part _ ↦ Edit.part_plain _ part
  have hback : C.back.flatMap C.stretch.edit.part
      = (C.back.flatMap Part.lexemes).map (Lexeme.rebase C.span.stop C.resume) :=
    C.stretch.flatMap_back fun part _ ↦ Edit.part_plain _ part
  rw [items, List.map_append, List.map_cons, List.flatMap_append, List.flatMap_cons, h.lexemes_item,
    h.lexemes_other (List.subset_append_left _ _), h.lexemes_other (List.subset_append_right _ _),
    ← hfront, ← hback, front, back]
  simp only [List.flatMap_append, List.append_assoc]

section

variable {rest rest' : List Lexeme}

theorem sameNext (i : ItemPhrase) : SameNext (i.lexemes ++ rest) ((f i).lexemes ++ rest') := by
  by_cases heq : i = C.item
  · rw [heq, h.item]
    rfl
  · rw [h.other i heq]
    exact i.sameNext_edit

theorem whole {i : ItemPhrase} (hi : i.Whole rest) (hnext : SameNext rest rest') :
    (f i).Whole rest' := by
  have hfits := Edit.plain_fits (Span.map C.stretch.shifted)
  by_cases heq : i = C.item
  · rw [heq] at hi
    obtain ⟨_, _, _, _, _, _, hs⟩ := h.expanded
    rw [heq, h.item]
    exact ⟨hi.1.edit, h.swap.whole hfits (hs ▸ C.replaces _ _ _ _ _ _) hi.2⟩
  · rw [h.other i heq]
    exact hi.edit hfits hnext

end

/-- The new text is written with the new items. -/
theorem written : WrittenAs C.result (C.items.map f) := by
  obtain ⟨stop, hlex⟩ := h.lexes
  obtain ⟨_, -, hwhole⟩ := C.written_items
  refine ⟨stop, ?_, hwhole.map sameNext_cons (fun i _ _ _ ↦ h.sameNext i) fun _ _ _ _ ↦ h.whole⟩
  rw [hlex, h.lexemes_map]
  simp only [List.append_assoc]

/-! ### It stands for the same -/

theorem alike {i : ItemPhrase} (hi : i ∈ C.items) {d d' : CallableDecl}
    (htree : i.tree source = .callable d) (htree' : (f i).tree C.result = .callable d') :
    ∀ r ∈ d.body.spelled.spans, ∀ r' ∈ d'.body.spelled.spans,
      (definitionPlaces C.items f).Alike r.start r'.start := by
  have hitem : i.isDefine = false := by
    cases i with
    | define => cases htree
    | directive | global | callable => rfl
  intro r hr r' hr'
  exact C.written_items.alike_of_edged h.written hi hitem
    (ItemPhrase.edged_body htree r (d.body.spans_spelled hr))
    (ItemPhrase.edged_body htree' r' (d'.body.spans_spelled hr'))

variable (top : Nat) (t : Table Define)

/-- Spelled out, the body with the assignment differs from the new one in places only. -/
theorem item_moves : (C.item.tree source).Moves (definitionPlaces C.items f)
    (fun b b' ↦ Block.Inlined top (definitionPlaces C.items f) t b.spelled b'.spelled)
    ((f C.item).tree C.result) := by
  have hi : C.item ∈ C.items := List.mem_append_right _ List.mem_cons_self
  obtain ⟨_, _, _, _, _, _, hs⟩ := h.expanded
  rw [h.item]
  refine ⟨_, rfl, rfl, rfl, ?_, h.alike hi rfl (by rw [h.item]; rfl), ?_⟩
  · rw [ParamsPhrase.params_edit, List.map_map]
    rfl
  · refine h.swap.moves (Motion.free_inlining _ _) (hs ▸ C.moves_expanded
      (Motion.free_inlining _ _) _ _ _ _ _ _) fun part hpart ↦ ?_
    exact C.stretch.carries_part (Motion.free_inlining _ _)
      ((List.mem_append.1 hpart).imp C.mem_front C.mem_back)

theorem other_moves {i : ItemPhrase} (hi : i ∈ C.items) (hne : i ≠ C.item) :
    (i.tree source).Moves (definitionPlaces C.items f)
      (fun b b' ↦ Block.Inlined top (definitionPlaces C.items f) t b.spelled b'.spelled)
      ((f i).tree C.result) := by
  have hside := C.parts_side hi hne
  refine C.stretch.moves_item rfl hi (h.other i hne) (fun _ ↦ C.stretch.beside_item hside) ?_
  rintro kind word s nameSpan params body rfl
  refine ⟨h.alike hi rfl (by rw [h.other _ hne]; rfl), Block.Moves.spelled
    (Motion.free_inlining _ _)
      (BlockPhrase.moves_edit (Motion.free_inlining _ _).place fun part hpart ↦ ?_)⟩
  have hpart : part ∈ (ItemPhrase.callable kind word s nameSpan params body).parts := by
    simp [ItemPhrase.parts, hpart]
  exact C.stretch.carries_part (Motion.free_inlining _ _)
    (hside.imp (fun hsub ↦ hsub hpart) fun hsub ↦ hsub hpart)

/-- Spelled out, the old and the new items differ in places only. -/
theorem forall₂_moves :
    List.Forall₂ (Item.Moves (definitionPlaces C.items f)
        (Block.Inlined top (definitionPlaces C.items f) t))
      ((C.items.map (ItemPhrase.tree source)).map Item.spelled)
      (((C.items.map f).map (ItemPhrase.tree C.result)).map Item.spelled) := by
  simp only [List.forall₂_map_left_iff, List.forall₂_map_right_iff, List.forall₂_same]
  intro i hi
  refine Item.Moves.spelled ?_
  obtain rfl | hne := eq_or_ne i C.item
  · exact h.item_moves top t
  · exact h.other_moves top t hi hne

end Rewritten

/-- Every compound assignment in the body of a callable is one that can be written out. -/
theorem exists_of_mem {ps : List ItemPhrase} (hps : WrittenAs source ps) {d : CallableDecl}
    (hd : .callable d ∈ ps.map (ItemPhrase.tree source)) {x : String} {nameSpan span : Span}
    {op : BinOp} {e : Expr} (h : .assign x nameSpan (some op) e span ∈ d.body.all) :
    ∃ C : Compound source, C.items = ps ∧
      C.result = writtenOutAt source x op span e.span := by
  obtain ⟨i, hi, htree⟩ := List.mem_map.1 hd
  obtain ⟨before, after, rfl⟩ := List.append_of_mem hi
  cases i with
  | callable kind word title titleSpan params body =>
    cases htree
    obtain ⟨t, left, right, ht, hswap⟩ := BlockPhrase.exists_swap h
    cases t with
    | assign x nameSpan place sign value =>
      cases place with
      | none => cases ht
      | some o =>
        obtain ⟨op, place⟩ := o
        cases ht
        exact ⟨⟨before, kind, word, title, titleSpan, params, body, after, left, right, x, nameSpan,
          op, place, sign, value, hps, hswap⟩, rfl, rfl⟩
    | break_ | call | let_ | return_ | returnValue | loop | if_ | lone => cases ht
  | directive | global | define => cases htree

end Compound

/-! ## Layers

Which of the two texts is accepted is a fact about the outcome of compiling, and so are scopes and
pools. Positions are left out of it. -/

/-- Layers that compile alike are accepted or refused together, and leave the same code. -/
theorem Session.accepted_iff_of_agree {s : Session} {source source' : String}
    {items items' : List Item}
    {place : Offsets} (hitems : ReadsAs source items) (hitems' : ReadsAs source' items')
    (h : Agree (Program.Moved (s.nextLayer source).depth place) Eq
      ((s.nextLayer source).compile items (deepen s.program))
      ((s.nextLayer source').compile items' (deepen s.program))) (depth : Nat) :
    ((∃ s', s.compileLayer source = (.ok depth, s')) ↔
      ∃ t, s.compileLayer source' = (.ok depth, t)) ∧
    ∀ {s' t}, s.compileLayer source = (.ok depth, s') → s.compileLayer source' = (.ok depth, t) →
      t.program.scopes.map Scope.unplaced = s'.program.scopes.map Scope.unplaced ∧
      t.program.pools = s'.program.pools := by
  refine ⟨?_, fun {s' t} hs' ht ↦ ?_⟩
  · rw [accepted_iff hitems, accepted_iff hitems', h.exists_ok_iff]
    exact Iff.rfl
  · obtain ⟨-, hp⟩ := compile_of_readsAs hitems hs'
    obtain ⟨-, hq⟩ := compile_of_readsAs hitems' ht
    obtain ⟨_, q, hq', -, hmoved⟩ := h.ok_of_ok hp
    obtain rfl := (EStateM.Result.ok.inj (hq'.symm.trans hq)).2
    exact ⟨hmoved.scopes, hmoved.pools⟩

/-- Of a layer in which `x op= e` is written, and the same with `x = x op (e)` there, either both
are accepted or both are refused. When they are accepted, they have the same code, the same numbers,
texts and names of variables in every scope, and the same pools. -/
theorem compound_eq_written_out {s : Session} {source x : String} {items : List Item}
    {d : CallableDecl} {nameSpan span : Span} {op : BinOp} {e : Expr} (hs : s.Reachable)
    (hitems : ReadsAs source items) (hd : .callable d ∈ items)
    (hassign : .assign x nameSpan (some op) e span ∈ d.body.all) (depth : Nat) :
    ((∃ s', s.compileLayer source = (.ok depth, s')) ↔
      ∃ t, s.compileLayer (writtenOutAt source x op span e.span) = (.ok depth, t)) ∧
    ∀ {s' t}, s.compileLayer source = (.ok depth, s') →
      s.compileLayer (writtenOutAt source x op span e.span) = (.ok depth, t) →
      t.program.scopes.map Scope.unplaced = s'.program.scopes.map Scope.unplaced ∧
      t.program.pools = s'.program.pools := by
  obtain ⟨ps, hps, rfl⟩ := readsAs_iff.1 hitems
  obtain ⟨C, rfl, hresult⟩ := Compound.exists_of_mem hps hd hassign
  rw [← hresult]
  obtain ⟨f, _, _, h⟩ := C.exists_rewritten
  have hitems' : ReadsAs C.result _ := readsAs_iff.2 ⟨_, h.written, rfl⟩
  have hold : (Session.deepen s.program).Moved (s.nextLayer source).depth
      (definitionPlaces C.items f) (Session.deepen s.program) :=
    .refl fun d hd ↦ (Nat.lt_succ_of_le (hs.sound.defines d hd)).ne
  have hlayers : (s.nextLayer source).Same (s.nextLayer C.result) := ⟨rfl, rfl⟩
  have hagree := Layer.agree_compile_same hlayers hold (h.forall₂_moves _)
  rw [hs.compile_spelled hitems, hs.compile_spelled hitems'] at hagree
  exact Session.accepted_iff_of_agree hitems hitems' hagree depth

/-! ## A layer to look at -/

namespace Sample

/-- A layer that takes a sum from a global. -/
def difference : String :=
  "global g
script main() \x7b g -= g + g \x7d"

def differenceBody : BlockPhrase :=
  .mk ⟨23, 24⟩ (.cons (.assign "g" ⟨25, 26⟩ (some (.sub, ⟨27, 28⟩)) ⟨28, 29⟩
    (.binary (.name "g" ⟨30, 31⟩) .add ⟨32, 33⟩ (.name "g" ⟨34, 35⟩))) .nil) ⟨36, 37⟩

def differenceItems : List ItemPhrase :=
  [.global ⟨0, 6⟩ "g" ⟨7, 8⟩, .callable .script ⟨9, 15⟩ "main" ⟨16, 20⟩ (.empty ⟨20, 21⟩ ⟨21, 22⟩)
    differenceBody]

theorem written_difference : WrittenAs difference differenceItems := by
  refine ⟨⟨37, 37⟩, rfl, trivial, ⟨List.isChain_nil, ⟨?_, ?_⟩, trivial⟩, trivial⟩
  · exact fun o ho ↦ Option.mem_some.1 ho ▸ rfl
  · exact whole_double nofun rfl

end Sample

/-- Taking a sum away with `-=` is taking it away in parentheses. -/
theorem compound_eq_written_out_difference :
    ∃ s t, Sample.start.compileLayer Sample.difference = (.ok 1, s) ∧
      Sample.start.compileLayer
        "global g
script main() \x7b g = g - (g + g) \x7d" = (.ok 1, t) ∧
      t.program.scopes.map Scope.unplaced = s.program.scopes.map Scope.unplaced ∧
      t.program.pools = s.program.pools := by
  have hitems : ReadsAs Sample.difference _ := readsAs_iff.2 ⟨_, Sample.written_difference, rfl⟩
  obtain ⟨s, hs⟩ := Sample.accepted_of_toOption Sample.difference
    (by decide +kernel)
  obtain ⟨haccepted, hsame⟩ := compound_eq_written_out Sample.reachable_start hitems
    (List.mem_cons_of_mem _ List.mem_cons_self) List.mem_cons_self 1
  have hsource : writtenOutAt Sample.difference "g" .sub ⟨25, 35⟩ ⟨30, 35⟩ = "global g
script main() \x7b g = g - (g + g) \x7d" := by decide +kernel
  obtain ⟨t, ht⟩ := haccepted.1 ⟨s, hs⟩
  exact ⟨s, t, hs, hsource ▸ ht, hsame hs ht⟩

end CharacterScript
