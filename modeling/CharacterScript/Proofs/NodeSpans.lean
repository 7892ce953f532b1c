import CharacterScript.Proofs.SyntaxNodes

/-!
# Spans are exact

The span of a node is put together while the node is read: from the places of its first and last
lexeme, or from the spans of what stands at its two ends. Either way it reaches from the start of
the first lexeme that was taken up for the node to the end of the last one, because lexemes stand
one behind the other and merging two spans keeps the outer ends (`Span.Reaches.merge`). Parentheses
around an expression are lexemes of the expression, and an `if` ends where its last branch does.

## From lexemes to spans

How nodes lie in the text follows from how they lie among the lexemes. A node holds parts of its own
stretch, so their spans are inside its own, and the parts follow each other, so their spans do.
-/

namespace CharacterScript

variable {source : String}

/-! ## Phrases reach over their lexemes

The first lexeme of a phrase is that of its first part, and the last one that of its last part.
Both are found by recursion on the phrase. -/

/-- From a first lexeme to the end of what stands last. -/
theorem Span.reaches_from (l : Lexeme) (mid : List Lexeme) {ms : List Lexeme} {s : Span}
    (hs : InOrder ms → s.Reaches ms) (h : InOrder (l :: (mid ++ ms))) :
    (l.span.merge s).Reaches (l :: (mid ++ ms)) := by
  have hms : ms <:+: l :: (mid ++ ms) :=
    ((List.suffix_append _ _).trans (List.suffix_cons _ _)).isInfix
  exact (Span.reaches_singleton l).merge mid (hs (h.within hms)) h

theorem ArgPhrase.reaches (a : ArgPhrase) (h : InOrder a.lexemes) :
    (a.tree source).span.Reaches a.lexemes := by
  cases a with
  | expr p => exact Phrase.reaches source h
  | text value span => exact Span.reaches_singleton (⟨.text value, span⟩ : Lexeme)

theorem BlockPhrase.reaches (b : BlockPhrase) (h : InOrder b.lexemes) :
    (b.tree source).span.Reaches b.lexemes := by
  obtain ⟨opening, stmts, closing⟩ := b
  exact Span.reaches_from (Punct.openBrace.at opening) stmts.lexemes
    (fun _ ↦ Span.reaches_singleton (Punct.closeBrace.at closing)) h

/-- The last body of an `if` stands at its end. -/
theorem BranchesPhrase.exists_last (source : String) :
    ∀ (more : BranchesPhrase) (body : BlockPhrase), ∃ (front : List Lexeme) (last : BlockPhrase),
      body.lexemes ++ more.lexemes = front ++ last.lexemes ∧
        (more.tree source).lastSpan (body.tree source).span = (last.tree source).span
  | .done, body => ⟨[], body, List.append_nil _, rfl⟩
  | .else_ word last, body =>
    ⟨body.lexemes ++ [Keyword.else_.at word], last, List.append_cons _ _ _, rfl⟩
  | .elif word cond next more, body => by
    obtain ⟨front, last, hlexemes, hspan⟩ := BranchesPhrase.exists_last source more next
    refine ⟨body.lexemes ++ Keyword.elif.at word :: (cond.lexemes ++ front), last, ?_, hspan⟩
    rw [BranchesPhrase.lexemes, hlexemes]
    simp

theorem StmtPhrase.reaches (s : StmtPhrase) (h : InOrder s.lexemes) :
    (s.tree source).span.Reaches s.lexemes := by
  cases s with
  | break_ word => exact Span.reaches_singleton (Keyword.break_.at word)
  | return_ word => exact Span.reaches_singleton (Keyword.return_.at word)
  | lone s span => exact Span.reaches_singleton (⟨.name s, span⟩ : Lexeme)
  | call c => exact c.reaches h
  | let_ word s nameSpan sign value =>
    exact Span.reaches_from (Keyword.let_.at word) [⟨.name s, nameSpan⟩, Punct.eq.at sign]
      (Phrase.reaches source) h
  | assign s nameSpan op sign value =>
    have hlexemes : (StmtPhrase.assign s nameSpan op sign value).lexemes = ⟨.name s, nameSpan⟩ ::
        (((op.map fun o ↦ o.1.punct.at o.2).toList ++ [Punct.eq.at sign]) ++ value.lexemes) := by
      simp [StmtPhrase.lexemes]
    rw [hlexemes] at h ⊢
    exact Span.reaches_from ⟨.name s, nameSpan⟩ _ (Phrase.reaches source) h
  | returnValue word value =>
    exact Span.reaches_from (Keyword.return_.at word) [] (Phrase.reaches source) h
  | loop word body => exact Span.reaches_from (Keyword.loop.at word) [] body.reaches h
  | if_ word cond body more =>
    obtain ⟨front, last, hlast, hspan⟩ := BranchesPhrase.exists_last source more body
    have hlexemes : (StmtPhrase.if_ word cond body more).lexemes =
        Keyword.if_.at word :: ((cond.lexemes ++ front) ++ last.lexemes) := by
      rw [StmtPhrase.lexemes, hlast, List.append_assoc]
    rw [StmtPhrase.tree, Stmt.span, hspan]
    rw [hlexemes] at h ⊢
    exact Span.reaches_from (Keyword.if_.at word) _ last.reaches h

theorem ItemPhrase.reaches (p : ItemPhrase) (h : InOrder p.lexemes) :
    (p.tree source).span.Reaches p.lexemes := by
  cases p with
  | directive d path span => exact Span.reaches_singleton (⟨.directive d path, span⟩ : Lexeme)
  | global word s span =>
    exact Span.reaches_from (Keyword.global.at word) []
      (fun _ ↦ Span.reaches_singleton (⟨.name s, span⟩ : Lexeme)) h
  | define word s nameSpan body =>
    exact Span.reaches_from ⟨.defineWord, word⟩ [⟨.name s, nameSpan⟩] (Phrase.reaches source) h
  | callable kind word s nameSpan params body =>
    exact Span.reaches_from (kind.keyword.at word) (⟨.name s, nameSpan⟩ :: params.lexemes)
      body.reaches h

theorem SyntaxNode.Phrased.reaches {n : SyntaxNode} {own rest : List Lexeme}
    (h : n.Phrased source own rest) (horder : InOrder own) : n.span.Reaches own := by
  cases h with
  | @item p => exact p.reaches horder
  | @block b => exact b.reaches horder
  | @stmt s => exact s.reaches horder
  | @call c => exact c.reaches horder
  | @arg a => exact a.reaches horder
  | expr => exact Phrase.reaches source horder

/-- The span of a node reaches over the lexemes the node was read from. -/
theorem SyntaxNode.ReadFrom.reaches {n : SyntaxNode} {own rest : List Lexeme}
    (h : n.ReadFrom source own rest) (horder : InOrder own) : n.span.Reaches own := by
  obtain ⟨behind, hphrased⟩ := h.exists_phrased
  exact hphrased.reaches horder

/-! ## Inside and side by side

These are statements about stretches of one list in order, and know nothing of nodes. -/

theorem InOrder.le_stop {ls : List Lexeme} {r : Span} (h : InOrder ls) (hr : r.Reaches ls) :
    ∀ l ∈ ls, l.span.stop ≤ r.stop := by
  obtain ⟨before, last, rfl, hstop⟩ := hr.stop
  intro l hl
  rcases List.mem_append.1 hl with hbefore | hlast
  · have hle := ((List.pairwise_append.1 h.increasing).2.2 l hbefore last (by simp)).2
    exact (hle.trans (h.start_le_stop last (by simp))).trans hstop.le
  · rw [List.mem_singleton.1 hlast]
    exact hstop.le

/-- A span over a part lies inside the span over the whole. -/
theorem Span.Reaches.inside {ls ms : List Lexeme} {r s : Span} (hr : r.Reaches ls)
    (hs : s.Reaches ms) (hms : ms <:+: ls) (h : InOrder ls) :
    r.start ≤ s.start ∧ s.stop ≤ r.stop := by
  obtain ⟨⟨first, more, hfirst, hstart⟩, ⟨before, last, hlast, hstop⟩⟩ := hs
  have hfirst' : first ∈ ls := hms.subset (by simp [hfirst])
  have hlast' : last ∈ ls := hms.subset (by simp [hlast])
  rw [← hstart, ← hstop]
  exact ⟨(h.start_le hr first hfirst').1, h.le_stop hr last hlast'⟩

/-- A span over lexemes ends before a span over later ones starts. -/
theorem Span.Reaches.stop_le_start {ls mid ms : List Lexeme} {r s : Span} (hr : r.Reaches ls)
    (hs : s.Reaches ms) (h : InOrder (ls ++ (mid ++ ms))) : r.stop ≤ s.start := by
  obtain ⟨before, last, hlast, hstop⟩ := hr.stop
  obtain ⟨first, more, hfirst, hstart⟩ := hs.start
  rw [← hstop, ← hstart]
  have hbetween := (List.pairwise_append.1 h.increasing).2.2
  exact (hbetween last (by simp [hlast]) first (by simp [hfirst])).2

/-- Nodes that take up lexemes one behind the other have spans that do not overlap. -/
theorem InTurn.apart {nodes : List SyntaxNode} {own rest : List Lexeme}
    (h : InTurn source nodes own rest) (horder : InOrder own) :
    nodes.Pairwise fun a b ↦ a.span.stop ≤ b.span.start := by
  induction nodes generalizing own with
  | nil => exact .nil
  | cons n nodes ih =>
    obtain ⟨gap, stretch, back, rfl, hn, hnodes⟩ := h
    have hback : back <:+: gap ++ (stretch ++ back) :=
      ((List.suffix_append _ _).trans (List.suffix_append _ _)).isInfix
    refine .cons (fun m hm ↦ ?_) (ih hnodes (horder.within hback))
    obtain ⟨front, stretch', more, rfl, hm⟩ := hnodes.exists_stretch hm
    have hboth : stretch ++ (front ++ stretch') <:+:
        gap ++ (stretch ++ (front ++ (stretch' ++ more))) := ⟨gap, more, by simp⟩
    have horder' := horder.within hboth
    have hfirst := hn.reaches (horder'.within (List.prefix_append _ _).isInfix)
    have hsecond := hm.reaches (horder'.within
      ((List.suffix_append _ _).trans (List.suffix_append _ _)).isInfix)
    exact hfirst.stop_le_start hsecond horder'

/-- What stands in a node lies inside its span. -/
theorem SyntaxNode.Phrased.inside {n c : SyntaxNode} {own rest : List Lexeme}
    (h : n.Phrased source own rest) (horder : InOrder own) (hc : c ∈ n.children) :
    n.span.start ≤ c.span.start ∧ c.span.stop ≤ n.span.stop := by
  obtain ⟨front, stretch, back, rfl, hstretch⟩ := h.children.exists_stretch hc
  have hinfix : stretch <:+: front ++ (stretch ++ back) := ⟨front, back, by simp⟩
  exact (h.reaches horder).inside (hstretch.reaches (horder.within hinfix)) hinfix horder

/-! ## Files -/

/-- The spans of a tree say where its nodes stand. -/
structure ExactSpans (source : String) (ts : List Lexeme) (items : List Item) : Prop where
  /-- Every node was read from a stretch of the lexemes. -/
  read : ∀ n, SyntaxNode.InFile items n →
    ∃ front own rest, ts = front ++ (own ++ rest) ∧ n.ReadFrom source own rest
  /-- Over each stretch that a node was read from, its span reaches from the start of the first
  lexeme to the end of the last one. -/
  reaches : ∀ n, SyntaxNode.InFile items n → ∀ front own rest, ts = front ++ (own ++ rest) →
    n.ReadFrom source own rest → n.span.Reaches own
  /-- What is part of a node stands inside it. -/
  inside : ∀ n c, SyntaxNode.InFile items n → c ∈ n.children →
    n.span.start ≤ c.span.start ∧ c.span.stop ≤ n.span.stop
  /-- What stands side by side in a node, be it statements, branches, arguments or operands, comes
  in the order it is written and does not overlap. -/
  apart : ∀ n, SyntaxNode.InFile items n →
    n.children.Pairwise fun a b ↦ a.span.stop ≤ b.span.start
  /-- The items come in the order they are written and do not overlap. -/
  items_apart : items.Pairwise fun i j ↦ i.span.stop ≤ j.span.start

/-- The spans of every file that reads are exact. -/
theorem parseFile_exactSpans {ts : List Lexeme} {items : List Item} (hlex : lex source = .ok ts)
    (hparse : parseFile source ts = .ok items) : ExactSpans source ts items := by
  have horder : ∀ {front own rest : List Lexeme}, ts = front ++ (own ++ rest) → InOrder own :=
    fun {front own rest} hts ↦ (inOrder_of_lex hlex).within ⟨front, rest, by simp [hts]⟩
  refine ⟨fun n hn ↦ ?_, fun n _ front own rest hts hread ↦ hread.reaches (horder hts),
    fun n c hn hc ↦ ?_, fun n hn ↦ ?_, ?_⟩
  · obtain ⟨front, own, rest, hts, hown⟩ := hn.exists_stretch hlex hparse
    exact ⟨front, own, rest, hts, hown.readFrom⟩
  · obtain ⟨front, own, rest, hts, hown⟩ := hn.exists_stretch hlex hparse
    exact hown.inside (horder hts) hc
  · obtain ⟨front, own, rest, hts, hown⟩ := hn.exists_stretch hlex hparse
    exact hown.children.apart (horder hts)
  · obtain ⟨body, stop, hlex', hturn⟩ := ReadsAs.inTurn ⟨ts, hlex, hparse⟩
    have hbody := (inOrder_of_lex hlex').within (List.prefix_append body _).isInfix
    exact List.pairwise_map.1 (hturn.apart hbody)

namespace Sample

/-- All kinds of items and branches, and an expression in two pairs of parentheses. -/
def manyPlaces : String :=
  "#out é.bin\nglobal g\n#define A ((g * 2)) // twice\nfn f(&a, b) \x7b a += !b \x7d
script main() \x7b if (A) \x7b return f(g, \"é\") \x7d
else if 1 \x7b \x7d else \x7b loop \x7b break \x7d \x7d \x7d"

end Sample

set_option maxRecDepth 2000 in
/-- The body of the definition starts and ends with its outer parentheses. -/
theorem parseFile_exactSpans_sample :
    ∃ ts items, lex Sample.manyPlaces = .ok ts ∧ parseFile Sample.manyPlaces ts = .ok items ∧
      items.map (fun i ↦ (i.span, i.children.map SyntaxNode.span)) =
        [(⟨0, 11⟩, []), (⟨12, 20⟩, []), (⟨21, 40⟩, [⟨31, 40⟩]), (⟨50, 73⟩, [⟨62, 73⟩]),
          (⟨74, 158⟩, [⟨88, 158⟩])] ∧
      ExactSpans Sample.manyPlaces ts items := by
  obtain ⟨ts, items, hlex, hparse, hspans⟩ :=
    Sample.exists_items Sample.manyPlaces rfl
      (·.map fun i ↦ (i.span, i.children.map SyntaxNode.span))
      [(⟨0, 11⟩, []), (⟨12, 20⟩, []), (⟨21, 40⟩, [⟨31, 40⟩]), (⟨50, 73⟩, [⟨62, 73⟩]),
        (⟨74, 158⟩, [⟨88, 158⟩])] (by decide +kernel)
  exact ⟨ts, items, hlex, hparse, hspans, parseFile_exactSpans hlex hparse⟩

end CharacterScript
