import CharacterScript.Proofs.Grammar.Files
import CharacterScript.Proofs.Tokenization
import Mathlib.Order.MinMax

/-!
# Trees start and end with lexemes

Every place in the tree of a phrase starts where one of its lexemes starts and ends where one ends
(`Phrase.edged`). The lexemes of a file increase, so what stands in one item comes before what
stands in the next, in the trees too (`WrittenAs.start_lt`).

## Why edges

Two files that have the same lexemes at different places have their trees at corresponding places,
but a tree has places that belong to no lexeme: a node reaches over several of them. Each such
place starts with a lexeme and ends with one, so a map of the places of lexemes that keeps their
order is a map of all places.
-/

namespace CharacterScript

/-! ## Edges -/

/-- The span starts where one of the lexemes does, ends where one does, and holds one. -/
structure Span.Edged (ls : List Lexeme) (r : Span) : Prop where
  /-- A lexeme starts where it does. -/
  start : ∃ l ∈ ls, l.span.start = r.start
  /-- A lexeme ends where it does. -/
  stop : ∃ l ∈ ls, l.span.stop = r.stop
  /-- A lexeme is in it. -/
  holds : ∃ l ∈ ls, r.start ≤ l.span.start ∧ l.span.stop ≤ r.stop

theorem Span.edged_of_mem {ls : List Lexeme} {l : Lexeme} (h : l ∈ ls) : l.span.Edged ls :=
  ⟨⟨l, h, rfl⟩, ⟨l, h, rfl⟩, ⟨l, h, le_rfl, le_rfl⟩⟩

theorem Span.Edged.merge {ls : List Lexeme} {r s : Span} (hr : r.Edged ls) (hs : s.Edged ls) :
    (r.merge s).Edged ls := by
  obtain ⟨l, hl, hstart, hstop⟩ := hr.holds
  refine ⟨?_, ?_, ⟨l, hl, (min_le_left _ _).trans hstart, hstop.trans (le_max_left _ _)⟩⟩
  · obtain hmin | hmin := min_choice r.start s.start
    · rw [Span.merge, hmin]
      exact hr.start
    · rw [Span.merge, hmin]
      exact hs.start
  · obtain hmax | hmax := max_choice r.stop s.stop
    · rw [Span.merge, hmax]
      exact hr.stop
    · rw [Span.merge, hmax]
      exact hs.stop

/-- Every span of the list is. -/
def Edged (ls : List Lexeme) (spans : List Span) : Prop :=
  ∀ r ∈ spans, r.Edged ls

variable {ls : List Lexeme} {source : String}

@[simp] theorem edged_nil : Edged ls [] :=
  List.forall_mem_nil _

@[simp] theorem edged_cons {r : Span} {spans : List Span} :
    Edged ls (r :: spans) ↔ r.Edged ls ∧ Edged ls spans :=
  List.forall_mem_cons

@[simp] theorem edged_append {spans more : List Span} :
    Edged ls (spans ++ more) ↔ Edged ls spans ∧ Edged ls more :=
  List.forall_mem_append

/-- A place in a tree is a place of the text. -/
theorem Span.Edged.valid {r : Span} {ts : List Lexeme} (h : r.Edged ls) (hlex : lex source = .ok ts)
    (hls : ls ⊆ ts) : String.Pos.Raw.IsValid source ⟨r.start⟩ ∧
      String.Pos.Raw.IsValid source ⟨r.stop⟩ ∧ r.start ≤ r.stop := by
  obtain ⟨l, hl, hstart⟩ := h.start
  obtain ⟨m, hm, hstop⟩ := h.stop
  obtain ⟨k, hk, hle, hle'⟩ := h.holds
  obtain ⟨_, hl⟩ := (lex_tiles hlex).stands (hls hl)
  obtain ⟨_, hm⟩ := (lex_tiles hlex).stands (hls hm)
  exact ⟨hstart ▸ hl.start, hstop ▸ hm.stop,
    hle.trans (((lex_tiles hlex).start_le_stop (hls hk)).trans hle')⟩

theorem Edged.withSpan {e : Expr} {span : Span} (h : Edged ls e.spans) (hspan : span.Edged ls) :
    Edged ls (e.withSpan span).spans := by
  cases e with
  | number | name | calculation => simpa [Expr.withSpan, Expr.spans] using hspan
  | call | not | binary =>
    rw [Expr.spans, edged_cons] at h
    rw [Expr.withSpan, Expr.spans, edged_cons]
    exact ⟨hspan, h.2⟩

theorem Edged.lastSpan : ∀ {rest : Branches} {before : Span}, Edged ls rest.spans →
    before.Edged ls → (rest.lastSpan before).Edged ls
  | .done, _, _, hbefore => hbefore
  | .else_ body, _, hrest, _ => hrest _ body.span_mem_spans
  | .elif _ body rest, _, hrest, _ => by
    rw [Branches.spans, edged_append, edged_append] at hrest
    show (rest.lastSpan body.span).Edged ls
    exact Edged.lastSpan hrest.2 (hrest.1.2 _ body.span_mem_spans)

/-! ## Phrases

The places in a tree are the spans of its nodes. They are put together from the outside inwards,
by merging what stands at the two ends. -/

theorem CallHead.edged_start (head : CallHead) (h : head.lexemes ⊆ ls) :
    head.start.Edged ls ∧ head.nameSpan.Edged ls := by
  obtain ⟨collapse, name, nameSpan, opening⟩ := head
  cases collapse with
  | none =>
    have hname : nameSpan.Edged ls := Span.edged_of_mem (h (by simp [CallHead.lexemes]) :
      (⟨.name name, nameSpan⟩ : Lexeme) ∈ ls)
    exact ⟨hname, hname⟩
  | some span =>
    simp only [CallHead.lexemes, Option.map_some, Option.toList_some, List.singleton_append,
      List.cons_subset] at h
    exact ⟨Span.edged_of_mem h.1, Span.edged_of_mem h.2.1⟩

mutual

theorem Phrase.edged : ∀ p : Phrase, p.lexemes ⊆ ls → Edged ls (p.tree source).spans
  | .number _ _, h | .hex _ _, h | .name _ _, h => by
    rw [Phrase.lexemes, List.cons_subset] at h
    rw [Phrase.tree, Expr.spans, edged_cons]
    exact ⟨Span.edged_of_mem h.1, edged_nil⟩
  | .target _ _ _, h => by
    rw [Phrase.lexemes, List.cons_subset, List.cons_subset] at h
    rw [Phrase.tree, Expr.spans, edged_cons]
    exact ⟨(Span.edged_of_mem h.1).merge (Span.edged_of_mem h.2.1), edged_nil⟩
  | .paren _ inner _, h => by
    rw [Phrase.lexemes, List.cons_subset, List.append_subset, List.cons_subset] at h
    exact (inner.edged h.2.1).withSpan ((Span.edged_of_mem h.1).merge (Span.edged_of_mem h.2.2.1))
  | .calculation _ _ _ _, h => by
    rw [Phrase.lexemes, List.cons_subset, List.cons_subset, List.append_subset,
      List.cons_subset] at h
    rw [Phrase.tree, Expr.spans, edged_cons]
    exact ⟨(Span.edged_of_mem h.1).merge (Span.edged_of_mem h.2.2.2.1), edged_nil⟩
  | .call c, h => by
    rw [Phrase.tree, Expr.spans, edged_cons]
    exact ⟨c.edged h _ (Call.span_mem_spans _), c.edged h⟩
  | .not _ inner, h => by
    rw [Phrase.lexemes, List.cons_subset] at h
    rw [Phrase.tree, Expr.spans, edged_cons]
    exact ⟨(Span.edged_of_mem h.1).merge (inner.edged h.2 _ (Expr.span_mem_spans _)),
      inner.edged h.2⟩
  | .binary left _ _ right, h => by
    rw [Phrase.lexemes, List.append_subset, List.cons_subset] at h
    rw [Phrase.tree, Expr.join, Expr.spans, edged_cons, edged_append]
    exact ⟨(left.edged h.1 _ (Expr.span_mem_spans _)).merge
      (right.edged h.2.2 _ (Expr.span_mem_spans _)), left.edged h.1, right.edged h.2.2⟩

theorem CallPhrase.edged : ∀ c : CallPhrase, c.lexemes ⊆ ls → Edged ls (c.tree source).spans
  | .empty head _, h => by
    rw [CallPhrase.lexemes, List.append_subset, List.cons_subset] at h
    obtain ⟨hstart, hname⟩ := head.edged_start h.1
    rw [CallPhrase.tree, Call.spans, edged_cons, edged_cons]
    exact ⟨hstart.merge (Span.edged_of_mem h.2.1), hname, edged_nil⟩
  | .full head args _, h => by
    rw [CallPhrase.lexemes, List.append_subset, List.append_subset, List.cons_subset] at h
    obtain ⟨hstart, hname⟩ := head.edged_start h.1
    rw [CallPhrase.tree, Call.spans, edged_cons, edged_cons]
    exact ⟨hstart.merge (Span.edged_of_mem h.2.2.1), hname, args.edged h.2.1⟩

theorem ArgsPhrase.edged : ∀ a : ArgsPhrase, a.lexemes ⊆ ls → Edged ls (argSpans (a.trees source))
  | .last arg, h => by
    rw [ArgsPhrase.trees, argSpans, argSpans, edged_append]
    exact ⟨arg.edged h, edged_nil⟩
  | .more arg _ rest, h => by
    rw [ArgsPhrase.lexemes, List.append_subset, List.cons_subset] at h
    rw [ArgsPhrase.trees, argSpans, edged_append]
    exact ⟨arg.edged h.1, rest.edged h.2.2⟩

theorem ArgPhrase.edged : ∀ a : ArgPhrase, a.lexemes ⊆ ls → Edged ls (a.tree source).spans
  | .expr p, h => p.edged h
  | .text _ _, h => by
    rw [ArgPhrase.lexemes, List.cons_subset] at h
    rw [ArgPhrase.tree, Arg.spans, edged_cons]
    exact ⟨Span.edged_of_mem h.1, edged_nil⟩

end

theorem Phrase.edged_span (p : Phrase) (h : p.lexemes ⊆ ls) : (p.tree source).span.Edged ls :=
  p.edged h _ (Expr.span_mem_spans _)

mutual

theorem StmtPhrase.edged : ∀ s : StmtPhrase, s.lexemes ⊆ ls → Edged ls (s.tree source).spans
  | .break_ _, h | .return_ _, h | .lone _ _, h => by
    rw [StmtPhrase.lexemes, List.cons_subset] at h
    rw [StmtPhrase.tree, Stmt.spans, edged_cons]
    exact ⟨Span.edged_of_mem h.1, edged_nil⟩
  | .call c, h => c.edged h
  | .let_ _ _ _ _ value, h => by
    rw [StmtPhrase.lexemes, List.cons_subset, List.cons_subset, List.cons_subset] at h
    rw [StmtPhrase.tree, Stmt.spans, edged_cons, edged_cons]
    exact ⟨(Span.edged_of_mem h.1).merge (value.edged_span h.2.2.2), Span.edged_of_mem h.2.1,
      value.edged h.2.2.2⟩
  | .assign _ _ _ _ value, h => by
    rw [StmtPhrase.lexemes, List.cons_subset, List.append_subset, List.cons_subset] at h
    have hname := Span.edged_of_mem h.1
    rw [StmtPhrase.tree, Stmt.spans, edged_cons, edged_cons]
    exact ⟨hname.merge (value.edged_span h.2.2.2), hname, value.edged h.2.2.2⟩
  | .returnValue _ value, h => by
    rw [StmtPhrase.lexemes, List.cons_subset] at h
    rw [StmtPhrase.tree, Stmt.spans, edged_cons]
    exact ⟨(Span.edged_of_mem h.1).merge (value.edged_span h.2), value.edged h.2⟩
  | .loop _ body, h => by
    rw [StmtPhrase.lexemes, List.cons_subset] at h
    have hbody := body.edged h.2
    rw [StmtPhrase.tree, Stmt.spans, edged_cons]
    exact ⟨(Span.edged_of_mem h.1).merge (hbody _ (Block.span_mem_spans _)), hbody⟩
  | .if_ _ cond body rest, h => by
    rw [StmtPhrase.lexemes, List.cons_subset, List.append_subset, List.append_subset] at h
    have hbody := body.edged h.2.2.1
    have hrest := rest.edged h.2.2.2
    rw [StmtPhrase.tree, Stmt.spans, edged_cons, edged_append, edged_append]
    exact ⟨(Span.edged_of_mem h.1).merge (hrest.lastSpan (hbody _ (Block.span_mem_spans _))),
      ⟨cond.edged h.2.1, hbody⟩, hrest⟩

theorem BlockPhrase.edged : ∀ b : BlockPhrase, b.lexemes ⊆ ls → Edged ls (b.tree source).spans
  | .mk _ stmts _, h => by
    rw [BlockPhrase.lexemes, List.cons_subset, List.append_subset, List.cons_subset] at h
    rw [BlockPhrase.tree, Block.spans, edged_cons]
    exact ⟨(Span.edged_of_mem h.1).merge (Span.edged_of_mem h.2.2.1), stmts.edged h.2.1⟩

theorem StmtsPhrase.edged : ∀ ss : StmtsPhrase, ss.lexemes ⊆ ls →
    Edged ls (stmtSpans (ss.trees source))
  | .nil, _ => edged_nil
  | .cons s rest, h => by
    rw [StmtsPhrase.lexemes, List.append_subset] at h
    rw [StmtsPhrase.trees, stmtSpans, edged_append]
    exact ⟨s.edged h.1, rest.edged h.2⟩

theorem BranchesPhrase.edged : ∀ b : BranchesPhrase, b.lexemes ⊆ ls →
    Edged ls (b.tree source).spans
  | .done, _ => edged_nil
  | .else_ _ body, h => body.edged (List.cons_subset.1 h).2
  | .elif _ cond body rest, h => by
    rw [BranchesPhrase.lexemes, List.cons_subset, List.append_subset, List.append_subset] at h
    rw [BranchesPhrase.tree, Branches.spans, edged_append, edged_append]
    exact ⟨⟨cond.edged h.2.1, body.edged h.2.2.1⟩, rest.edged h.2.2.2⟩

end

theorem ItemPhrase.edged (i : ItemPhrase) : Edged i.lexemes (i.tree source).spans := by
  cases i with
  | directive d path span =>
    rw [tree, Item.spans, edged_cons]
    exact ⟨Span.edged_of_mem (List.mem_singleton_self _), edged_nil⟩
  | global word s span =>
    have hall := List.Subset.refl (lexemes (.global word s span))
    rw [lexemes, List.cons_subset, List.cons_subset] at hall
    rw [tree, Item.spans, edged_cons]
    exact ⟨(Span.edged_of_mem hall.1).merge (Span.edged_of_mem hall.2.1), edged_nil⟩
  | define word s nameSpan body =>
    have hall := List.Subset.refl (lexemes (.define word s nameSpan body))
    rw [lexemes, List.cons_subset, List.cons_subset] at hall
    rw [tree, Item.spans, edged_cons, edged_cons]
    exact ⟨(Span.edged_of_mem hall.1).merge (body.edged_span hall.2.2), Span.edged_of_mem hall.2.1,
      body.edged hall.2.2⟩
  | callable kind word s nameSpan params body =>
    have hall := List.Subset.refl (lexemes (.callable kind word s nameSpan params body))
    rw [lexemes, List.cons_subset, List.cons_subset, List.append_subset] at hall
    have hbody : Edged _ (body.tree source).spans := body.edged hall.2.2.2
    rw [tree, Item.spans, edged_cons, edged_cons]
    exact ⟨(Span.edged_of_mem hall.1).merge (hbody _ (Block.span_mem_spans _)),
      Span.edged_of_mem hall.2.1, hbody⟩

/-! ### The first and the last lexeme -/

@[simp] theorem Expr.span_withSpan (e : Expr) (span : Span) : (e.withSpan span).span = span := by
  cases e <;> rfl

theorem Phrase.exists_first (source : String) : ∀ p : Phrase, ∃ l ls, p.lexemes = l :: ls ∧
    (p.tree source).span.start ≤ l.span.start
  | .number _ _ | .hex _ _ | .name _ _ => ⟨_, _, rfl, le_rfl⟩
  | .target _ _ _ | .calculation _ _ _ _ | .not _ _ => ⟨_, _, rfl, min_le_left _ _⟩
  | .paren _ _ _ => ⟨_, _, rfl, by
    rw [Phrase.tree, Expr.span_withSpan]
    exact min_le_left _ _⟩
  | .call c => by
    cases c with
    | empty head closing | full head args closing =>
      obtain ⟨collapse, name, nameSpan, opening⟩ := head
      cases collapse <;> exact ⟨_, _, rfl, min_le_left _ _⟩
  | .binary left _ _ _ => by
    obtain ⟨l, ls, hl, hle⟩ := left.exists_first source
    exact ⟨l, _, by rw [Phrase.lexemes, hl]; rfl, (min_le_left _ _).trans hle⟩

theorem Phrase.exists_last (source : String) : ∀ p : Phrase, ∃ ls l, p.lexemes = ls ++ [l] ∧
    l.token.endsOperand = true ∧ l.span.stop ≤ (p.tree source).span.stop
  | .number _ _ | .hex _ _ | .name _ _ => ⟨[], _, rfl, rfl, le_rfl⟩
  | .target sign _ _ => ⟨[Punct.at_.at sign], _, rfl, rfl, le_max_right _ _⟩
  | .calculation _ _ _ _ => ⟨_ :: _ :: _, _, rfl, rfl, le_max_right _ _⟩
  | .paren _ _ _ => ⟨_ :: _, _, rfl, rfl, by
    rw [Phrase.tree, Expr.span_withSpan]
    exact le_max_right _ _⟩
  | .call c => by
    cases c with
    | empty head closing => exact ⟨_, _, rfl, rfl, le_max_right _ _⟩
    | full head args closing =>
      exact ⟨_, _, (List.append_assoc _ _ _).symm, rfl, le_max_right _ _⟩
  | .not sign inner => by
    obtain ⟨ls, l, hl, hends, hle⟩ := inner.exists_last source
    exact ⟨Punct.bang.at sign :: ls, l, by rw [Phrase.lexemes, hl]; rfl, hends,
      hle.trans (le_max_right _ _)⟩
  | .binary left op sign right => by
    obtain ⟨ls, l, hl, hends, hle⟩ := right.exists_last source
    exact ⟨left.lexemes ++ op.punct.at sign :: ls, l, by rw [Phrase.lexemes, hl]; simp, hends,
      hle.trans (le_max_right _ _)⟩

section

variable {ts : List Lexeme} (hlex : lex source = .ok ts)

include hlex

theorem start_le_of_lex {l : Lexeme} (h : (l :: ls).Sublist ts) :
    ∀ n ∈ l :: ls, l.span.start ≤ n.span.start := by
  intro n hn
  obtain rfl | hn := List.mem_cons.1 hn
  · exact le_rfl
  · exact ((List.pairwise_cons.1 ((lex_tiles hlex).increasing.sublist h)).1 n hn).1.le

theorem le_stop_of_lex {l : Lexeme} (h : (ls ++ [l]).Sublist ts) :
    ∀ n ∈ ls ++ [l], n.span.stop ≤ l.span.stop := by
  intro n hn
  obtain hn | hn := List.mem_append.1 hn
  · have hlt := (List.pairwise_append.1 ((lex_tiles hlex).increasing.sublist h)).2.2 n hn l
      (List.mem_singleton_self _)
    exact hlt.2.trans ((lex_tiles hlex).start_le_stop (h.subset (by simp)))
  · rw [List.mem_singleton.1 hn]

/-- An expression stands from where its first lexeme starts to where its last one ends, and the last
one ends an operand. -/
theorem Phrase.exists_ends (p : Phrase) (hp : p.lexemes.Sublist ts) :
    ∃ l ls ms m, p.lexemes = l :: ls ∧ p.lexemes = ms ++ [m] ∧ m.token.endsOperand = true ∧
      (p.tree source).span = ⟨l.span.start, m.span.stop⟩ := by
  obtain ⟨l, ls, hl, hstart⟩ := p.exists_first source
  obtain ⟨ms, m, hm, hends, hstop⟩ := p.exists_last source
  refine ⟨l, ls, ms, m, hl, hm, hends, ?_⟩
  have hedged : (p.tree source).span.Edged p.lexemes := p.edged_span (List.Subset.refl _)
  obtain ⟨n, hn, hstart'⟩ := hedged.start
  obtain ⟨n', hn', hstop'⟩ := hedged.stop
  have hle : l.span.start ≤ (p.tree source).span.start :=
    hstart' ▸ start_le_of_lex hlex (hl ▸ hp) n (hl ▸ hn)
  have hge : (p.tree source).span.stop ≤ m.span.stop :=
    hstop' ▸ le_stop_of_lex hlex (hm ▸ hp) n' (hm ▸ hn')
  show (⟨(p.tree source).span.start, (p.tree source).span.stop⟩ : Span) = _
  rw [hstart.antisymm hle, hge.antisymm hstop]

/-- All lexemes of an expression stand where it does. -/
theorem Phrase.within_span (p : Phrase) (hp : p.lexemes.Sublist ts) {n : Lexeme}
    (hn : n ∈ p.lexemes) :
    (p.tree source).span.start ≤ n.span.start ∧ n.span.stop ≤ (p.tree source).span.stop := by
  obtain ⟨l, ls, ms, m, hl, hm, -, hspan⟩ := p.exists_ends hlex hp
  rw [hspan]
  exact ⟨start_le_of_lex hlex (hl ▸ hp) n (hl ▸ hn), le_stop_of_lex hlex (hm ▸ hp) n (hm ▸ hn)⟩

end

/-! ## Files

A file is known by the phrases that it was written with, from here on, and its items are their
trees. -/

/-- The phrases that a text is written with. -/
def WrittenAs (source : String) (ps : List ItemPhrase) : Prop :=
  ∃ stop, lex source = .ok (ps.flatMap ItemPhrase.lexemes ++ [⟨.eof, stop⟩]) ∧
    ItemsWhole ps [⟨.eof, stop⟩]

theorem readsAs_iff {source : String} {items : List Item} :
    ReadsAs source items ↔ ∃ ps, WrittenAs source ps ∧ ps.map (ItemPhrase.tree source) = items := by
  constructor
  · rintro ⟨ts, hlex, hparse⟩
    obtain ⟨body, rfl, hbody⟩ := (lex_tiles hlex).ends
    obtain ⟨ps, rfl, hwhole, rfl⟩ := (parseFile_eq_ok_iff fun l hl ↦ (hbody l hl).1).1 hparse
    exact ⟨ps, ⟨_, hlex, hwhole⟩, rfl⟩
  · rintro ⟨ps, ⟨stop, hlex, hwhole⟩, rfl⟩
    exact ⟨_, hlex, (parseFile_eq_ok_iff (noEof_flatMap ps)).2 ⟨ps, rfl, hwhole, rfl⟩⟩

/-- What a text reads as is the only thing it reads as. -/
theorem ReadsAs.unique {source : String} {items items' : List Item} (h : ReadsAs source items)
    (h' : ReadsAs source items') : items = items' := by
  obtain ⟨ts, hlex, hparse⟩ := h
  obtain ⟨ts', hlex', hparse'⟩ := h'
  cases hlex.symm.trans hlex'
  exact Except.ok.inj (hparse.symm.trans hparse')

namespace WrittenAs

variable {ps pre post : List ItemPhrase} {i j : ItemPhrase} {l l' : Lexeme}

/-- The lexemes of an item come before those of the items behind it. -/
theorem start_lt (h : WrittenAs source (pre ++ i :: post)) (hj : j ∈ post) (hl : l ∈ i.lexemes)
    (hl' : l' ∈ j.lexemes) : l.span.start < l'.span.start := by
  obtain ⟨stop, hlex, -⟩ := h
  have hincreasing := (List.pairwise_append.1 (lex_tiles hlex).increasing).1
  rw [List.flatMap_append, List.flatMap_cons] at hincreasing
  have hbehind := (List.pairwise_append.1 hincreasing).2.1
  exact ((List.pairwise_append.1 hbehind).2.2 l hl l' (List.mem_flatMap.2 ⟨j, hj, hl'⟩)).1

end WrittenAs

/-- In two files of the same items, the lexemes of two items are in the same order. -/
theorem WrittenAs.same_order {source source' : String} {ps : List ItemPhrase}
    {f : ItemPhrase → ItemPhrase} (h : WrittenAs source ps) (h' : WrittenAs source' (ps.map f))
    {i j : ItemPhrase} (hi : i ∈ ps) (hj : j ∈ ps) (hne : j ≠ i) {l m l' m' : Lexeme}
    (hl : l ∈ i.lexemes) (hm : m ∈ j.lexemes) (hl' : l' ∈ (f i).lexemes)
    (hm' : m' ∈ (f j).lexemes) : l.span.start < m.span.start ↔ l'.span.start < m'.span.start := by
  obtain ⟨pre, post, rfl⟩ := List.append_of_mem hi
  rcases List.mem_append.1 hj with hpre | hpost
  · obtain ⟨pre, between, rfl⟩ := List.append_of_mem hpre
    have hmem : i ∈ between ++ i :: post := by simp
    have hlist : pre ++ j :: between ++ i :: post = pre ++ j :: (between ++ i :: post) := by simp
    rw [hlist] at h h'
    rw [List.map_append, List.map_cons] at h'
    have hlt := h.start_lt hmem hm hl
    have hlt' := h'.start_lt (List.mem_map_of_mem hmem) hm' hl'
    exact ⟨fun hgt ↦ absurd hgt hlt.asymm, fun hgt ↦ absurd hgt hlt'.asymm⟩
  · have hpost := List.mem_of_ne_of_mem hne hpost
    rw [List.map_append, List.map_cons] at h'
    exact iff_of_true (h.start_lt hpost hl hm) (h'.start_lt (List.mem_map_of_mem hpost) hl' hm')

namespace ItemPhrase

def isDefine : ItemPhrase → Bool
  | define _ _ _ _ => true
  | _ => false

theorem edged_define {source : String} {i : ItemPhrase} {d : DefineDecl}
    (h : i.tree source = .define d) : i.isDefine = true ∧ d.span.Edged i.lexemes := by
  have hedged : Edged i.lexemes (Item.define d).spans := h ▸ i.edged
  refine ⟨?_, (edged_cons.1 hedged).1⟩
  cases i with
  | define => rfl
  | directive | global | callable => cases h

theorem edged_body {source : String} {i : ItemPhrase} {d : CallableDecl}
    (h : i.tree source = .callable d) : ∀ r ∈ d.body.spans, r.Edged i.lexemes := by
  have hedged : Edged i.lexemes (Item.callable d).spans := h ▸ i.edged
  exact (edged_cons.1 (edged_cons.1 hedged).2).2

end ItemPhrase

end CharacterScript
