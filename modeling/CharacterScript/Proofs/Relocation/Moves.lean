import CharacterScript.Proofs.Relocation.Phrases

/-!
# The tree of what has been edited

What an edited phrase stands for is what the phrase stood for, moved: this holds of a phrase if it
holds of its parts (`Edit.Carries`). A name in parentheses has the place of the parentheses, so the
statements are about trees at any two places.

## Free motions

An edit of a text moves all lexemes, so any place may become any other, and a motion that allows
this is all that can be shown of an edited tree at once (`Motion.Free`). What the places are to
each other is known from the edit and is added where it is needed.
-/

namespace CharacterScript

@[simp] theorem Expr.withSpan_withSpan (e : Expr) (span span' : Span) :
    (e.withSpan span).withSpan span' = e.withSpan span' := by
  cases e <;> rfl

@[simp] theorem Expr.withSpan_span (e : Expr) : e.withSpan e.span = e := by
  cases e <;> rfl

variable {E : Edit} {m : Motion} {source source' : String}

/-- An edited part stands for what the motion allows. A name that is no part of its own may be one
behind an `@`. -/
def Edit.Carries (E : Edit) (m : Motion) (source source' : String) : Part → Prop
  | .name s at_ => ∀ span span', m.name s false span (((E.leaf s at_).tree source').withSpan span')
  | .calculation _ opening _ closing =>
    Parser.captured source' ⟨(E.move opening).stop, (E.move closing).start⟩
        = Parser.captured source ⟨opening.stop, closing.start⟩ ∧
      m.calculation (Parser.captured source ⟨opening.stop, closing.start⟩)
  | .lexeme l => ∀ s, l.token = .name s → ∀ span span', m.name s true span (.name s true span')

/-- Where names may go anywhere and stay names, only what is cut out of the text counts. -/
theorem Edit.carries_plain {move : Span → Span} (hm : m.Free) {part : Part}
    (h : ∀ {word opening inner closing}, part = .calculation word opening inner closing →
      Parser.captured source' ⟨(move opening).stop, (move closing).start⟩
        = Parser.captured source ⟨opening.stop, closing.start⟩) :
    (Edit.plain move).Carries m source source' part := by
  cases part with
  | lexeme l => exact fun s _ ↦ hm.name s true
  | name s at_ => exact hm.name s false
  | calculation word opening inner closing => exact ⟨h rfl, hm.calculation _⟩

/-! ## Expressions

The induction is on the phrase. The cases are alike: the head moves, and the parts are moved by
induction. -/

mutual

theorem Phrase.moves_edit (hplace : ∀ span span', m.place span span') :
    ∀ {p : Phrase}, (∀ part ∈ p.parts, E.Carries m source source' part) →
    ∀ span span', ((p.tree source).withSpan span).Moves m
      (((p.edit E).tree source').withSpan span')
  | .number _ _, _, _, _ | .hex _ _, _, _, _ => .number
  | .name _ _, h, span, span' => .name (h _ List.mem_cons_self span span')
  | .target _ s at_, h, span, span' =>
    .name (h (.lexeme ⟨.name s, at_⟩) (by simp [Phrase.parts]) s rfl span span')
  | .paren _ inner _, h, span, span' => by
    rw [Phrase.edit, Phrase.tree, Phrase.tree, Expr.withSpan_withSpan, Expr.withSpan_withSpan]
    exact Phrase.moves_edit hplace (p := inner)
      (fun part hpart ↦ h part (by simp [Phrase.parts, hpart])) _ _
  | .calculation _ _ _ _, h, _, span' => by
    obtain ⟨htext, hcalculation⟩ := h _ List.mem_cons_self
    rw [Phrase.edit, Phrase.tree, Phrase.tree, htext]
    exact .calculation (hplace _ _) hcalculation
  | .call c, h, _, _ => .call (CallPhrase.moves_edit hplace (c := c) h)
  | .not _ inner, h, _, _ => by
    have hinner := Phrase.moves_edit hplace (p := inner) fun part hpart ↦
      h part (List.mem_cons_of_mem _ hpart)
    exact .not (by simpa using hinner (inner.tree source).span ((inner.edit E).tree source').span)
  | .binary left _ _ right, h, _, _ => by
    have hleft := Phrase.moves_edit hplace (p := left) fun part hpart ↦
      h part (by simp [Phrase.parts, hpart])
    have hright := Phrase.moves_edit hplace (p := right) fun part hpart ↦
      h part (by simp [Phrase.parts, hpart])
    exact .binary (by simpa using hleft (left.tree source).span ((left.edit E).tree source').span)
      (by simpa using hright (right.tree source).span ((right.edit E).tree source').span)

theorem CallPhrase.moves_edit (hplace : ∀ span span', m.place span span') : ∀ {c : CallPhrase},
    (∀ part ∈ c.parts, E.Carries m source source' part) →
    (c.tree source).Moves m ((c.edit E).tree source')
  | .empty head _, _ => by
    rw [CallPhrase.edit, CallPhrase.tree, CallPhrase.tree, Edit.head, Option.isSome_map]
    exact .mk .nil
  | .full head args _, h => by
    rw [CallPhrase.edit, CallPhrase.tree, CallPhrase.tree, Edit.head, Option.isSome_map]
    exact .mk (ArgsPhrase.moves_edit hplace (a := args) fun part hpart ↦
      h part (by simp [CallPhrase.parts, hpart]))

theorem ArgsPhrase.moves_edit (hplace : ∀ span span', m.place span span') : ∀ {a : ArgsPhrase},
    (∀ part ∈ a.parts, E.Carries m source source' part) →
    ArgsMove m (a.trees source) ((a.edit E).trees source')
  | .last arg, h => .cons (ArgPhrase.moves_edit hplace (a := arg) h) .nil
  | .more arg _ rest, h =>
    .cons (ArgPhrase.moves_edit hplace (a := arg) fun part hpart ↦
      h part (by simp [ArgsPhrase.parts, hpart]))
      (ArgsPhrase.moves_edit hplace (a := rest) fun part hpart ↦
        h part (by simp [ArgsPhrase.parts, hpart]))

theorem ArgPhrase.moves_edit (hplace : ∀ span span', m.place span span') : ∀ {a : ArgPhrase},
    (∀ part ∈ a.parts, E.Carries m source source' part) →
    (a.tree source).Moves m ((a.edit E).tree source')
  | .expr p, h => by
    have hp := Phrase.moves_edit hplace (p := p) h (p.tree source).span
      ((p.edit E).tree source').span
    exact .expr (by simpa using hp)
  | .text _ _, _ => .text

end

theorem Phrase.moves_tree (hplace : ∀ span span', m.place span span') {p : Phrase}
    (h : ∀ part ∈ p.parts, E.Carries m source source' part) :
    (p.tree source).Moves m ((p.edit E).tree source') := by
  simpa using Phrase.moves_edit hplace h (p.tree source).span ((p.edit E).tree source').span

/-! ## Statements -/

mutual

theorem StmtPhrase.moves_edit (hplace : ∀ span span', m.place span span') : ∀ {s : StmtPhrase},
    (∀ part ∈ s.parts, E.Carries m source source' part) →
    (s.tree source).Moves m ((s.edit E).tree source')
  | .break_ _, _ => .break_
  | .call _, h => .call (CallPhrase.moves_edit hplace h)
  | .let_ _ _ _ _ _, h => .let_ (hplace _ _) (Phrase.moves_tree hplace fun part hpart ↦
    h part (by simp [StmtPhrase.parts, hpart]))
  | .assign _ _ op _ _, h => by
    rw [StmtPhrase.edit, StmtPhrase.tree, StmtPhrase.tree, Option.map_map]
    exact .assign (Phrase.moves_tree hplace fun part hpart ↦
      h part (by simp [StmtPhrase.parts, hpart]))
  | .return_ _, _ => .return_
  | .returnValue _ _, h => .returnValue (Phrase.moves_tree hplace fun part hpart ↦
    h part (by simp [StmtPhrase.parts, hpart]))
  | .loop _ body, h => .loop (BlockPhrase.moves_edit hplace (b := body) fun part hpart ↦
    h part (by simp [StmtPhrase.parts, hpart]))
  | .if_ _ _ body rest, h => .if_
    (Phrase.moves_tree hplace fun part hpart ↦ h part (by simp [StmtPhrase.parts, hpart]))
    (BlockPhrase.moves_edit hplace (b := body) fun part hpart ↦
      h part (by simp [StmtPhrase.parts, hpart]))
    (BranchesPhrase.moves_edit hplace (b := rest) fun part hpart ↦
      h part (by simp [StmtPhrase.parts, hpart]))
  | .lone _ _, _ => .lone

theorem BlockPhrase.moves_edit (hplace : ∀ span span', m.place span span') : ∀ {b : BlockPhrase},
    (∀ part ∈ b.parts, E.Carries m source source' part) →
    (b.tree source).Moves m ((b.edit E).tree source')
  | .mk _ stmts _, h => .mk (StmtsPhrase.moves_edit hplace (s := stmts) fun part hpart ↦
    h part (by simp [BlockPhrase.parts, hpart]))

theorem StmtsPhrase.moves_edit (hplace : ∀ span span', m.place span span') : ∀ {s : StmtsPhrase},
    (∀ part ∈ s.parts, E.Carries m source source' part) →
    StmtsMove m (s.trees source) ((s.edit E).trees source')
  | .nil, _ => .nil
  | .cons s rest, h => .cons
    (StmtPhrase.moves_edit hplace (s := s) fun part hpart ↦
      h part (by simp [StmtsPhrase.parts, hpart]))
    (StmtsPhrase.moves_edit hplace (s := rest) fun part hpart ↦
      h part (by simp [StmtsPhrase.parts, hpart]))

theorem BranchesPhrase.moves_edit (hplace : ∀ span span', m.place span span') :
    ∀ {b : BranchesPhrase},
    (∀ part ∈ b.parts, E.Carries m source source' part) →
    (b.tree source).Moves m ((b.edit E).tree source')
  | .done, _ => .done
  | .else_ _ body, h => .else_ (BlockPhrase.moves_edit hplace (b := body) fun part hpart ↦
    h part (by simp [BranchesPhrase.parts, hpart]))
  | .elif _ _ body rest, h => .elif
    (Phrase.moves_tree hplace fun part hpart ↦ h part (by simp [BranchesPhrase.parts, hpart]))
    (BlockPhrase.moves_edit hplace (b := body) fun part hpart ↦
      h part (by simp [BranchesPhrase.parts, hpart]))
    (BranchesPhrase.moves_edit hplace (b := rest) fun part hpart ↦
      h part (by simp [BranchesPhrase.parts, hpart]))

end

/-! ## Items -/

/-- An edited item stays the same if the texts of definitions and the bodies of callables do. -/
theorem ItemPhrase.moves_edit {place : Offsets} {same : Block → Block → Prop} {i : ItemPhrase}
    (hdefine : ∀ {d d'}, i.tree source = .define d → (i.edit E).tree source' = .define d' →
      d'.text = d.text ∧ place d.span.start d'.span.start)
    (hbody : ∀ {kind word s nameSpan params body}, i = .callable kind word s nameSpan params body →
      same (body.tree source) ((body.edit E).tree source')) :
    (i.tree source).Moves place same ((i.edit E).tree source') := by
  cases i with
  | directive d path span => exact ⟨d, path, _, rfl⟩
  | global word s span => exact ⟨_, rfl⟩
  | define word s nameSpan body =>
    obtain ⟨htext, hplace⟩ := hdefine rfl rfl
    exact ⟨_, rfl, rfl, htext, hplace⟩
  | callable kind word s nameSpan params body =>
    refine ⟨_, rfl, rfl, rfl, ?_, hbody rfl⟩
    rw [ParamsPhrase.params_edit, List.map_map]
    rfl

end CharacterScript
