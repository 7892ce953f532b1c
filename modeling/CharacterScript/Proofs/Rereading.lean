import CharacterScript.Proofs.Relocation.Captured
import CharacterScript.Proofs.TreeParts

/-!
# Texts that are cut out of a file and read again

A definition keeps its body as text, and a calculation its argument; both are read when they are
expanded. The text of a definition reads as the very body it was cut out for, with its places
counted from the start of the text, and the text of a calculation reads as one expression, in which
the same holds of the calculations (`ReadsThroughout`).

## From lexemes to trees

The lexemes of a phrase that is moved to the start of a text are those the text is made of
(`Phrase.fills_captured`), and so the phrase is what is read there. Its tree is the old one with all
places moved (`Phrase.tree_plain`).

## Nested calculations

The argument of a calculation may have a calculation in it, whose own argument is a part of the
same text. So it is not enough to read each captured text on its own: what is read in one has
captured texts again, and these have to be what they were in the file. `ReadsThroughout` says this
to any depth.
-/

namespace CharacterScript

variable {source source' text : String}

/-! ## Moving a tree

Places are counted from the start of the text, so a tree is moved by taking the same number from
all of its places. The texts of calculations stay. -/

mutual

/-- The tree with every place in it moved. The texts of calculations stay. -/
def Expr.relocate (move : Span → Span) : Expr → Expr
  | .number value span => .number value (move span)
  | .name s fromTarget span => .name s fromTarget (move span)
  | .call c span => .call (c.relocate move) (move span)
  | .calculation text span => .calculation text (move span)
  | .not inner span => .not (inner.relocate move) (move span)
  | .binary op left right span => .binary op (left.relocate move) (right.relocate move) (move span)

def Call.relocate (move : Span → Span) : Call → Call
  | .mk name nameSpan collapse args span =>
    .mk name (move nameSpan) collapse (relocateArgs move args) (move span)

def Arg.relocate (move : Span → Span) : Arg → Arg
  | .expr e => .expr (e.relocate move)
  | .text value span => .text value (move span)

def relocateArgs (move : Span → Span) : List Arg → List Arg
  | [] => []
  | arg :: rest => arg.relocate move :: relocateArgs move rest

end

@[simp] theorem Expr.span_relocate (move : Span → Span) (e : Expr) :
    (e.relocate move).span = move e.span := by
  cases e <;> rfl

@[simp] theorem Expr.relocate_withSpan (move : Span → Span) (e : Expr) (span : Span) :
    (e.withSpan span).relocate move = (e.relocate move).withSpan (move span) := by
  cases e <;> rfl

mutual

/-- Moved there and back. -/
theorem Expr.relocate_relocate {move back : Span → Span} (h : ∀ s, back (move s) = s) :
    ∀ e : Expr, (e.relocate move).relocate back = e
  | .number _ _ | .name _ _ _ | .calculation _ _ => by simp only [Expr.relocate, h]
  | .call c _ => by simp only [Expr.relocate, h, c.relocate_relocate h]
  | .not inner _ => by simp only [Expr.relocate, h, inner.relocate_relocate h]
  | .binary _ left right _ => by
    simp only [Expr.relocate, h, left.relocate_relocate h, right.relocate_relocate h]

theorem Call.relocate_relocate {move back : Span → Span} (h : ∀ s, back (move s) = s) :
    ∀ c : Call, (c.relocate move).relocate back = c
  | .mk _ _ _ args _ => by simp only [Call.relocate, h, relocateArgs_relocateArgs h args]

theorem Arg.relocate_relocate {move back : Span → Span} (h : ∀ s, back (move s) = s) :
    ∀ a : Arg, (a.relocate move).relocate back = a
  | .expr e => by simp only [Arg.relocate, e.relocate_relocate h]
  | .text _ _ => by simp only [Arg.relocate, h]

theorem relocateArgs_relocateArgs {move back : Span → Span} (h : ∀ s, back (move s) = s) :
    ∀ as : List Arg, relocateArgs back (relocateArgs move as) = as
  | [] => rfl
  | a :: as => by
    simp only [relocateArgs, a.relocate_relocate h, relocateArgs_relocateArgs h as]

end

/-- Both texts have the same behind the calculations of these parts. -/
def SameCaptured (source source' : String) (f : Nat → Nat) (parts : List Part) : Prop :=
  ∀ word opening inner closing, .calculation word opening inner closing ∈ parts →
    Parser.captured source' ⟨f opening.stop, f closing.start⟩
      = Parser.captured source ⟨opening.stop, closing.start⟩

theorem SameCaptured.mono {f : Nat → Nat} {parts more : List Part}
    (h : SameCaptured source source' f more) (hsub : parts ⊆ more) :
    SameCaptured source source' f parts :=
  fun word opening inner closing hmem ↦ h word opening inner closing (hsub hmem)

theorem CallHead.start_plain {f : Nat → Nat} (hf : Monotone f) (head : CallHead) (closing : Span) :
    ((Edit.plain (Span.map f)).head head).start.merge (closing.map f)
      = (head.start.merge closing).map f := by
  have hstart : ((Edit.plain (Span.map f)).head head).start = head.start.map f := by
    obtain ⟨collapse, name, nameSpan, opening⟩ := head
    cases collapse <;> rfl
  rw [hstart, Span.map_merge hf]

mutual

/-- A phrase that is only moved stands for the moved tree. -/
theorem Phrase.tree_plain {f : Nat → Nat} (hf : Monotone f) : ∀ {p : Phrase},
    SameCaptured source source' f p.parts →
    (p.edit (.plain (Span.map f))).tree source' = (p.tree source).relocate (Span.map f)
  | .number _ _, _ | .hex _ _, _ | .name _ _, _ => rfl
  | .target sign s span, _ => by
    rw [Phrase.edit, Phrase.tree, Phrase.tree, Expr.relocate, Span.map_merge hf]
    rfl
  | .paren opening inner closing, h => by
    have hinner := Phrase.tree_plain hf (p := inner) (h.mono fun part hpart ↦ by
      simp [Phrase.parts, hpart])
    rw [Phrase.edit, Phrase.tree, Phrase.tree, hinner, Expr.relocate_withSpan, Span.map_merge hf]
    rfl
  | .calculation word opening inner closing, h => by
    have htext := h word opening inner closing List.mem_cons_self
    rw [Phrase.edit, Phrase.tree, Phrase.tree, Expr.relocate, Span.map_merge hf, ← htext]
    rfl
  | .call c, h => by
    have hc := CallPhrase.tree_plain hf (c := c) h
    rw [Phrase.edit, Phrase.tree, Phrase.tree, hc, Expr.relocate]
    cases c <;> rfl
  | .not sign inner, h => by
    have hinner := Phrase.tree_plain hf (p := inner) (h.mono fun part hpart ↦ by
      simp [Phrase.parts, hpart])
    rw [Phrase.edit, Phrase.tree, Phrase.tree, hinner, Expr.relocate, Span.map_merge hf,
      Expr.span_relocate]
    rfl
  | .binary left op sign right, h => by
    have hleft := Phrase.tree_plain hf (p := left) (h.mono fun part hpart ↦ by
      simp [Phrase.parts, hpart])
    have hright := Phrase.tree_plain hf (p := right) (h.mono fun part hpart ↦ by
      simp [Phrase.parts, hpart])
    rw [Phrase.edit, Phrase.tree, Phrase.tree, hleft, hright, Expr.join, Expr.join, Expr.relocate,
      Expr.span_relocate, Expr.span_relocate, Span.map_merge hf]

theorem CallPhrase.tree_plain {f : Nat → Nat} (hf : Monotone f) : ∀ {c : CallPhrase},
    SameCaptured source source' f c.parts →
    (c.edit (.plain (Span.map f))).tree source' = (c.tree source).relocate (Span.map f)
  | .empty head closing, _ => by
    rw [CallPhrase.edit, CallPhrase.tree, CallPhrase.tree, Call.relocate, ← head.start_plain hf]
    simp [Edit.head, relocateArgs, Edit.plain]
  | .full head args closing, h => by
    have hargs := ArgsPhrase.tree_plain hf (a := args) (h.mono fun part hpart ↦ by
      simp [CallPhrase.parts, hpart])
    rw [CallPhrase.edit, CallPhrase.tree, CallPhrase.tree, Call.relocate,
      ← head.start_plain hf, hargs]
    simp [Edit.head, Edit.plain]

theorem ArgsPhrase.tree_plain {f : Nat → Nat} (hf : Monotone f) : ∀ {a : ArgsPhrase},
    SameCaptured source source' f a.parts →
    (a.edit (.plain (Span.map f))).trees source' = relocateArgs (Span.map f) (a.trees source)
  | .last arg, h => by
    rw [ArgsPhrase.edit, ArgsPhrase.trees, ArgsPhrase.trees, ArgPhrase.tree_plain hf (a := arg) h]
    rfl
  | .more arg comma rest, h => by
    have harg := ArgPhrase.tree_plain hf (a := arg) (h.mono fun part hpart ↦ by
      simp [ArgsPhrase.parts, hpart])
    have hrest := ArgsPhrase.tree_plain hf (a := rest) (h.mono fun part hpart ↦ by
      simp [ArgsPhrase.parts, hpart])
    rw [ArgsPhrase.edit, ArgsPhrase.trees, ArgsPhrase.trees, harg, hrest]
    rfl

theorem ArgPhrase.tree_plain {f : Nat → Nat} (hf : Monotone f) : ∀ {a : ArgPhrase},
    SameCaptured source source' f a.parts →
    (a.edit (.plain (Span.map f))).tree source' = (a.tree source).relocate (Span.map f)
  | .expr p, h => by
    rw [ArgPhrase.edit, ArgPhrase.tree, ArgPhrase.tree, Phrase.tree_plain hf (p := p) h]
    rfl
  | .text _ _, _ => rfl

end

/-! ## Where a tree starts and ends

What is cut out of a file is what the span of a tree covers. It starts with the first lexeme of
the phrase and ends with the last. -/

/-- The span reaches from the start of the first lexeme to the end of the last one. -/
structure Span.Reaches (ls : List Lexeme) (r : Span) : Prop where
  /-- It starts with the first lexeme. -/
  start : ∃ l more, ls = l :: more ∧ l.span.start = r.start
  /-- It ends with the last one. -/
  stop : ∃ before l, ls = before ++ [l] ∧ l.span.stop = r.stop

/-- Lexemes as they stand in a text, one behind the other. -/
structure InOrder (ls : List Lexeme) : Prop where
  /-- Each starts behind all those before it. -/
  increasing : ls.Pairwise fun a b ↦ a.span.start < b.span.start ∧ a.span.stop ≤ b.span.start
  /-- None ends before it starts. -/
  start_le_stop : ∀ l ∈ ls, l.span.start ≤ l.span.stop

theorem InOrder.within {ls ms : List Lexeme} (h : InOrder ms) (hls : ls <:+: ms) : InOrder ls :=
  ⟨h.increasing.sublist hls.sublist, fun l hl ↦ h.start_le_stop l (hls.subset hl)⟩

theorem inOrder_of_lex {ts : List Lexeme} (h : lex source = .ok ts) : InOrder ts :=
  ⟨(lex_tiles h).increasing, fun _ hl ↦ (lex_tiles h).start_le_stop hl⟩

theorem Span.reaches_singleton (l : Lexeme) : l.span.Reaches [l] :=
  ⟨⟨l, [], rfl, rfl⟩, ⟨[], l, rfl, rfl⟩⟩

/-- From a span at the front to a span at the back. -/
theorem Span.Reaches.merge {ls ms : List Lexeme} {r s : Span} (hr : r.Reaches ls)
    (mid : List Lexeme) (hs : s.Reaches ms) (h : InOrder (ls ++ (mid ++ ms))) :
    (r.merge s).Reaches (ls ++ (mid ++ ms)) := by
  obtain ⟨⟨a, as, hls, hstart⟩, ⟨bs, b, hls', hstop⟩⟩ := hr
  obtain ⟨⟨c, cs, hms, hstart'⟩, ⟨ds, d, hms', hstop'⟩⟩ := hs
  have hbetween := (List.pairwise_append.1 h.increasing).2.2
  have hac := (hbetween a (by simp [hls]) c (by simp [hms])).1
  have hbd := (hbetween b (by simp [hls']) d (by simp [hms'])).2
  have hd := h.start_le_stop d (by simp [hms'])
  have hmerge : r.merge s = ⟨r.start, s.stop⟩ := by
    rw [Span.merge, min_eq_left (by omega), max_eq_right (by omega)]
  rw [hmerge]
  exact ⟨⟨a, as ++ (mid ++ ms), by rw [hls, List.cons_append], hstart⟩,
    ⟨ls ++ (mid ++ ds), d, by rw [hms', ← List.append_assoc mid, ← List.append_assoc ls], hstop'⟩⟩

theorem CallHead.exists_start (head : CallHead) :
    ∃ l more, head.lexemes = l :: more ∧ l.span = head.start := by
  obtain ⟨collapse, name, nameSpan, opening⟩ := head
  cases collapse with
  | none | some span => exact ⟨_, _, rfl, rfl⟩

theorem CallPhrase.reaches (c : CallPhrase) (h : InOrder c.lexemes) :
    (c.tree source).span.Reaches c.lexemes := by
  cases c with
  | empty head closing =>
    obtain ⟨l, more, hhead, hspan⟩ := head.exists_start
    rw [CallPhrase.lexemes, hhead] at h ⊢
    rw [CallPhrase.tree, Call.span, ← hspan]
    exact (Span.reaches_singleton l).merge _
      (Span.reaches_singleton (Punct.closeParen.at closing)) h
  | full head args closing =>
    obtain ⟨l, more, hhead, hspan⟩ := head.exists_start
    rw [CallPhrase.lexemes, hhead, ← List.append_assoc] at h ⊢
    rw [CallPhrase.tree, Call.span, ← hspan]
    exact (Span.reaches_singleton l).merge _
      (Span.reaches_singleton (Punct.closeParen.at closing)) h

/-- The place of an expression is where its lexemes stand. -/
theorem Phrase.reaches (source : String) : ∀ {p : Phrase}, InOrder p.lexemes →
    (p.tree source).span.Reaches p.lexemes
  | .number value span, _ => Span.reaches_singleton (⟨.number value, span⟩ : Lexeme)
  | .hex value span, _ => Span.reaches_singleton (⟨.hex value, span⟩ : Lexeme)
  | .name s span, _ => Span.reaches_singleton (⟨.name s, span⟩ : Lexeme)
  | .target sign s span, h =>
    (Span.reaches_singleton (Punct.at_.at sign)).merge []
      (Span.reaches_singleton (⟨.name s, span⟩ : Lexeme)) h
  | .paren opening inner closing, h => by
    rw [Phrase.tree, Expr.span_withSpan]
    exact (Span.reaches_singleton (Punct.openParen.at opening)).merge _
      (Span.reaches_singleton (Punct.closeParen.at closing)) h
  | .calculation word opening inner closing, h =>
    (Span.reaches_singleton ⟨.calcWord, word⟩).merge (Punct.openParen.at opening :: inner.lexemes)
      (Span.reaches_singleton (Punct.closeParen.at closing)) h
  | .call c, h => c.reaches h
  | .not sign inner, h =>
    (Span.reaches_singleton (Punct.bang.at sign)).merge []
      (Phrase.reaches source (p := inner) (h.within (List.suffix_cons _ _).isInfix)) h
  | .binary left op sign right, h => by
    have hleft := Phrase.reaches source (p := left)
      (h.within (List.prefix_append _ _).isInfix)
    have hright := Phrase.reaches source (p := right) (h.within
      ((List.suffix_cons _ _).trans (List.suffix_append _ _)).isInfix)
    exact hleft.merge [op.punct.at sign] hright h

/-! ## Texts that are one expression -/

theorem Phrase.head_ne_minus (p : Phrase) : ∀ l, p.lexemes.head? = some l →
    l.token ≠ .punct .minus := by
  rintro ⟨t, span⟩ hl rfl
  have hstart := p.startsExpr_lexemes []
  obtain ⟨more, hmore⟩ := List.head?_eq_some_iff.1 hl
  rw [hmore] at hstart
  cases hstart

/-- A phrase that fills a text is what is read there. -/
theorem Phrase.Fills.reads {p : Phrase} (h : p.Fills text) :
    ∃ ts, lex text = .ok ts ∧ parseExpression text ts = .ok (p.tree text) := by
  obtain ⟨stop, hlex, hwhole⟩ := h
  refine ⟨_, hlex, ?_⟩
  have hfuel : 2 * p.lexemes.length ≤ Parser.steps (p.lexemes ++ [⟨.eof, stop⟩]) := by
    rw [Parser.steps, List.length_append]
    omega
  rw [parseExpression, Parser.expr_of_whole hwhole hfuel]
  rfl

/-- A phrase fills what is cut out of a text around its lexemes, once it is moved to the start. -/
theorem Phrase.fills_captured {p : Phrase} {last last' : Option Token}
    {before mid after : List Char}
    (hsource : source.toList = before ++ (mid ++ after))
    (h : Pieces after last (byteLength before) mid p.lexemes last') (hlevel : p.Leveled 0)
    (hclosed : p.Closed) :
    (p.edit (.plain (Span.rebase (byteLength before + byteLength (mid.takeWhile isSpace)) 0))).Fills
      (Parser.captured source ⟨byteLength before, byteLength before + byteLength mid⟩) := by
  obtain ⟨stop, hlex⟩ := h.lex_captured hsource p.inner p.head_ne_minus
  refine ⟨stop, ?_, hlevel.edit (Edit.plain_fits _), ?_, (ended_eof _ _).stops⟩
  · rw [hlex, Phrase.lexemes_plain]
    rfl
  · exact (hclosed _ (ended_eof stop [])).edit (Edit.plain_fits _) rfl

/-! ## Calculations

What is collected from a tree is a list, so what holds of each calculation is proved for lists
that are put together like the tree is. -/

/-- The text reads as one expression, and so do the texts of the calculations in it. -/
inductive ReadsThroughout : String → Prop
  | intro {text : String} {ts : List Lexeme} {e : Expr} (hlex : lex text = .ok ts)
    (hparse : parseExpression text ts = .ok e)
    (hcalculations : ∀ t ∈ e.calculations, ReadsThroughout t) : ReadsThroughout text

/-- The text is the argument of a calculation that is written among the lexemes. -/
def Calculated (source : String) (ls : List Lexeme) (text : String) : Prop :=
  ∃ (opening : Span) (inner : Phrase) (closing : Span),
    Punct.openParen.at opening :: (inner.lexemes ++ [Punct.closeParen.at closing]) <:+: ls ∧
      inner.Leveled 0 ∧ inner.Closed ∧
      text = Parser.captured source ⟨opening.stop, closing.start⟩

theorem Calculated.mono {ls ms : List Lexeme} (h : Calculated source ls text) (hls : ls <:+: ms) :
    Calculated source ms text := by
  obtain ⟨opening, inner, closing, hinfix, hinner⟩ := h
  exact ⟨opening, inner, closing, hinfix.trans hls, hinner⟩

/-- The argument of a calculation is cut out between its parentheses. -/
theorem Calculated.exists_fills {ts : List Lexeme} (hlex : lex source = .ok ts)
    (h : Calculated source ts text) :
      ∃ p : Phrase, p.Fills text ∧ p.lexemes.length + 2 ≤ ts.length := by
  obtain ⟨opening, inner, closing, ⟨front, back, hts⟩, hlevel, hclosed, rfl⟩ := h
  have hts' : ts = front ++ Punct.openParen.at opening ::
      (inner.lexemes ++ Punct.closeParen.at closing :: back) := by
    rw [← hts]
    simp
  have hlexes := lex_eq_ok_iff.1 hlex
  rw [hts'] at hlexes
  obtain ⟨before, rest, hsource, -, hstop, hrest⟩ := hlexes.exists_pieces nofun
  obtain ⟨mid, spelled, after, last', rfl, hmid, -, -, hspan, -⟩ :=
    hrest.exists_token (l := Punct.closeParen.at closing) nofun rfl
  rw [Nat.zero_add] at hstop
  have hstop' : opening.stop = byteLength before := hstop
  have hstart : closing.start = byteLength before + byteLength mid := by
    rw [show closing = _ from hspan, hstop]
  rw [hstop', hstart]
  refine ⟨_, Phrase.fills_captured hsource (hstop ▸ hmid) hlevel hclosed, ?_⟩
  rw [Phrase.lexemes_plain, List.length_map, hts']
  simp only [List.length_append, List.length_cons]
  omega

@[simp] theorem Expr.calculations_withSpan (e : Expr) (span : Span) :
    (e.withSpan span).calculations = e.calculations := by
  cases e <;> rfl

/-- Each of the texts is the argument of a calculation among the lexemes. -/
def AllCalculated (source : String) (ls : List Lexeme) (texts : List String) : Prop :=
  ∀ text ∈ texts, Calculated source ls text

variable {ls : List Lexeme}

@[simp] theorem allCalculated_nil : AllCalculated source ls [] :=
  List.forall_mem_nil _

theorem AllCalculated.mono {ms : List Lexeme} {texts : List String}
    (h : AllCalculated source ls texts) (hls : ls <:+: ms) : AllCalculated source ms texts :=
  fun text htext ↦ (h text htext).mono hls

/-- In front and behind. -/
theorem AllCalculated.append {ms : List Lexeme} {texts more : List String}
    (h : AllCalculated source ls texts) (h' : AllCalculated source ms more) :
    AllCalculated source (ls ++ ms) (texts ++ more) := by
  refine List.forall_mem_append.2 ⟨?_, ?_⟩
  · exact h.mono (List.prefix_append _ _).isInfix
  · exact h'.mono (List.suffix_append _ _).isInfix

theorem AllCalculated.cons {texts : List String} (l : Lexeme) (h : AllCalculated source ls texts) :
    AllCalculated source (l :: ls) texts :=
  h.mono (List.suffix_cons _ _).isInfix

theorem AllCalculated.enclosed {texts : List String} (l m : Lexeme)
    (h : AllCalculated source ls texts) :
    AllCalculated source (l :: (ls ++ [m])) texts :=
  (h.mono (List.prefix_append _ _).isInfix).cons l

mutual

theorem Phrase.allCalculated : ∀ {p : Phrase} {k : Nat} {rest : List Lexeme}, p.Leveled k →
    p.Settled rest → AllCalculated source p.lexemes (p.tree source).calculations
  | .number _ _, _, _, _, _ | .hex _ _, _, _, _, _ | .name _ _, _, _, _, _
  | .target _ _ _, _, _, _, _ => allCalculated_nil
  | .paren opening inner closing, _, _, hlevel, hsettled => by
    rw [Phrase.tree, Expr.calculations_withSpan]
    exact (Phrase.allCalculated (p := inner) hlevel hsettled).enclosed _ _
  | .calculation word opening inner closing, _, _, hlevel, hsettled => by
    rw [Phrase.tree, Expr.calculations]
    intro text htext
    obtain rfl := List.mem_singleton.1 htext
    exact ⟨opening, inner, closing, (List.suffix_cons _ _).isInfix, hlevel,
      Phrase.Settled.closed hsettled, rfl⟩
  | .call c, _, _, hlevel, hsettled => CallPhrase.allCalculated (c := c) hlevel hsettled
  | .not sign inner, _, _, hlevel, hsettled =>
    (Phrase.allCalculated (p := inner) hlevel hsettled.2).cons _
  | .binary left op sign right, _, _, hlevel, hsettled => by
    rw [Phrase.Leveled] at hlevel
    exact (Phrase.allCalculated (p := left) hlevel.2.1 hsettled.1).append
      ((Phrase.allCalculated (p := right) hlevel.2.2 hsettled.2).cons _)

theorem CallPhrase.allCalculated : ∀ {c : CallPhrase} {rest : List Lexeme}, c.Leveled →
    c.Settled rest → AllCalculated source c.lexemes (c.tree source).calculations
  | .empty _ _, _, _, _ => allCalculated_nil
  | .full head args closing, _, hlevel, hsettled => by
    have hargs : AllCalculated source args.lexemes (argCalculations (args.trees source)) :=
      ArgsPhrase.allCalculated hlevel hsettled
    exact (hargs.mono (List.prefix_append _ _).isInfix).mono (List.suffix_append _ _).isInfix

theorem ArgsPhrase.allCalculated : ∀ {a : ArgsPhrase} {rest : List Lexeme}, a.Leveled →
    a.Settled rest → AllCalculated source a.lexemes (argCalculations (a.trees source))
  | .last arg, _, hlevel, hsettled => by
    rw [ArgsPhrase.trees, argCalculations, argCalculations, List.append_nil]
    exact ArgPhrase.allCalculated (a := arg) hlevel hsettled
  | .more arg comma rest, _, hlevel, hsettled =>
    (ArgPhrase.allCalculated (a := arg) hlevel.1 hsettled.1).append
      ((ArgsPhrase.allCalculated (a := rest) hlevel.2 hsettled.2).cons _)

theorem ArgPhrase.allCalculated : ∀ {a : ArgPhrase} {rest : List Lexeme}, a.Leveled →
    a.Settled rest → AllCalculated source a.lexemes (a.tree source).calculations
  | .expr p, _, hlevel, hsettled => Phrase.allCalculated (p := p) hlevel hsettled
  | .text _ _, _, _, _ => allCalculated_nil

end

theorem Phrase.Whole.allCalculated {p : Phrase} {k : Nat} {rest : List Lexeme}
    (h : p.Whole k rest) :
    AllCalculated source p.lexemes (p.tree source).calculations :=
  Phrase.allCalculated h.leveled h.settled

mutual

theorem StmtPhrase.allCalculated : ∀ {s : StmtPhrase} {rest : List Lexeme}, s.Whole rest →
    AllCalculated source s.lexemes (s.tree source).calculations
  | .break_ _, _, _ | .return_ _, _, _ | .lone _ _, _, _ => allCalculated_nil
  | .call c, _, h => CallPhrase.allCalculated (c := c) h.1 h.2
  | .let_ _ _ _ _ _, _, h => ((h.allCalculated.cons _).cons _).cons _
  | .assign _ _ _ _ _, _, h =>
    ((h.2.allCalculated.cons _).mono (List.suffix_append _ _).isInfix).cons _
  | .returnValue _ _, _, h => h.allCalculated.cons _
  | .loop _ body, _, h => (BlockPhrase.allCalculated (b := body) h).cons _
  | .if_ _ _ body more, _, h =>
    (h.1.allCalculated.append ((BlockPhrase.allCalculated (b := body) h.2.1).append
      (BranchesPhrase.allCalculated (b := more) h.2.2))).cons _

theorem BlockPhrase.allCalculated : ∀ {b : BlockPhrase} {rest : List Lexeme}, b.Whole rest →
    AllCalculated source b.lexemes (b.tree source).calculations
  | .mk _ stmts _, _, h => (StmtsPhrase.allCalculated (p := stmts) h).enclosed _ _

theorem StmtsPhrase.allCalculated : ∀ {p : StmtsPhrase} {rest : List Lexeme}, p.Whole rest →
    AllCalculated source p.lexemes (stmtCalculations (p.trees source))
  | .nil, _, _ => allCalculated_nil
  | .cons s more, _, h =>
    (StmtPhrase.allCalculated (s := s) h.1).append (StmtsPhrase.allCalculated (p := more) h.2)

theorem BranchesPhrase.allCalculated : ∀ {b : BranchesPhrase} {rest : List Lexeme}, b.Whole rest →
    AllCalculated source b.lexemes (b.tree source).calculations
  | .done, _, _ => allCalculated_nil
  | .else_ _ body, _, h => (BlockPhrase.allCalculated (b := body) h).cons _
  | .elif _ _ body more, _, h =>
    (h.1.allCalculated.append ((BlockPhrase.allCalculated (b := body) h.2.1).append
      (BranchesPhrase.allCalculated (b := more) h.2.2))).cons _

end

theorem ItemPhrase.allCalculated {i : ItemPhrase} {rest : List Lexeme} (h : i.Whole rest) :
    AllCalculated source i.lexemes (i.tree source).calculations := by
  cases i with
  | directive | global => exact allCalculated_nil
  | define word s nameSpan body => exact ((Phrase.Whole.allCalculated h).cons _).cons _
  | callable kind word s nameSpan params body =>
    have hbody : AllCalculated source body.lexemes (body.tree source).calculations :=
      BlockPhrase.allCalculated h.2
    exact ((hbody.mono (List.suffix_append _ _).isInfix).cons _).cons _

/-- What fills a text reads, and so does what is calculated in it. -/
theorem Phrase.Fills.readsThroughout {p : Phrase} (h : p.Fills text) : ReadsThroughout text := by
  induction hn : p.lexemes.length using Nat.strong_induction_on generalizing p text with
  | _ n ih =>
  obtain ⟨ts, hlex, hparse⟩ := h.reads
  obtain ⟨stop, hlex', hwhole⟩ := h
  refine .intro hlex hparse fun t ht ↦ ?_
  have hcalculated := (hwhole.allCalculated t ht).mono (List.prefix_append _ [⟨.eof, stop⟩]).isInfix
  obtain ⟨q, hq, hlength⟩ := hcalculated.exists_fills hlex'
  rw [List.length_append, List.length_singleton] at hlength
  exact ih _ (by omega) hq rfl

theorem ItemsWhole.of_mem {i : ItemPhrase} {rest : List Lexeme} :
    ∀ {before after : List ItemPhrase},
    ItemsWhole (before ++ i :: after) rest → i.Whole (after.flatMap ItemPhrase.lexemes ++ rest)
  | [], _, h => h.1
  | _ :: _, _, h => ItemsWhole.of_mem h.2

/-- An item of a file stands somewhere among its lexemes, and is whole there. -/
theorem exists_item_of_readsAs {items : List Item} (h : ReadsAs source items) {i : Item}
    (hi : i ∈ items) : ∃ (p : ItemPhrase) (front back : List Lexeme),
      lex source = .ok (front ++ (p.lexemes ++ back)) ∧ p.Whole back ∧ p.tree source = i := by
  obtain ⟨ps, ⟨stop, hlex, hwhole⟩, rfl⟩ := readsAs_iff.1 h
  obtain ⟨p, hp, rfl⟩ := List.mem_map.1 hi
  obtain ⟨before, after, rfl⟩ := List.append_of_mem hp
  refine ⟨p, before.flatMap ItemPhrase.lexemes,
    after.flatMap ItemPhrase.lexemes ++ [⟨.eof, stop⟩], ?_, hwhole.of_mem, rfl⟩
  rw [hlex, List.flatMap_append, List.flatMap_cons]
  simp only [List.append_assoc]

/-- The calculations of a file read. -/
theorem readsThroughout_of_readsAs {items : List Item} (h : ReadsAs source items) {i : Item}
    (hi : i ∈ items) : ∀ t ∈ i.calculations, ReadsThroughout t := by
  obtain ⟨p, front, back, hlex, hwhole, rfl⟩ := exists_item_of_readsAs h hi
  intro t ht
  have hcalculated := (ItemPhrase.allCalculated hwhole t ht).mono
    (⟨front, back, List.append_assoc _ _ _⟩ : p.lexemes <:+: front ++ (p.lexemes ++ back))
  obtain ⟨q, hq, -⟩ := hcalculated.exists_fills hlex
  exact hq.readsThroughout

/-! ## Definitions -/

/-- A text that stands in a larger one has the same parts there. -/
theorem captured_within {before after : List Char}
    (hsource : source.toList = before ++ (text.toList ++ after)) {x y : Nat}
    (hx : String.Pos.Raw.IsValid text ⟨x⟩) (hy : String.Pos.Raw.IsValid text ⟨y⟩) (hle : x ≤ y) :
    Parser.captured source ⟨x + byteLength before, y + byteLength before⟩
      = Parser.captured text ⟨x, y⟩ := by
  have hsize : y ≤ 0 + byteLength text.toList := by
    rw [Nat.zero_add, ← utf8ByteSize_eq_byteLength]
    exact hy.le_utf8ByteSize
  have hslice := @slice_rebase text source [] before text.toList [] after (by simp) hsource x y hx
    hy (Nat.zero_le _) hle hsize
  have hmoved : Span.rebase (byteLength []) (byteLength before) ⟨x, y⟩
      = ⟨x + byteLength before, y + byteLength before⟩ := rfl
  rw [hmoved] at hslice
  rw [Parser.captured, Parser.captured, hslice]

/-- A phrase stands in a larger text as it stands in its own, further behind. -/
theorem Phrase.Fills.tree_within {p : Phrase} (h : p.Fills text) {before after : List Char}
    (hsource : source.toList = before ++ (text.toList ++ after)) :
    (p.edit (.plain (Span.map (· + byteLength before)))).tree source
      = (p.tree text).relocate (Span.map (· + byteLength before)) := by
  obtain ⟨stop, hlex, -⟩ := h
  refine Phrase.tree_plain (fun x y hxy ↦ Nat.add_le_add_right hxy _) ?_
  intro word opening inner closing hmem
  have hparts : (p.parts.flatMap Part.lexemes).Sublist (p.lexemes ++ [⟨.eof, stop⟩]) := by
    rw [p.flatMap_parts]
    exact List.sublist_append_left _ _
  obtain ⟨hopening, hclosing, hle⟩ := Part.calculation_edges hlex hparts hmem
  obtain ⟨_, hopening⟩ := (lex_tiles hlex).stands hopening
  obtain ⟨_, hclosing⟩ := (lex_tiles hlex).stands hclosing
  exact captured_within hsource hopening.stop hclosing.start hle

theorem Pieces.ne_nil {rest text : List Char} {last last' : Option Token} {offset : Nat}
    {ts : List Lexeme} (h : Pieces rest last offset text ts last') (hts : ts ≠ []) : text ≠ [] := by
  cases h with
  | done => exact absurd rfl hts
  | gap hgap => exact fun hnil ↦ hgap.ne_nil (List.append_eq_nil_iff.1 hnil).1
  | token hspells => exact fun hnil ↦ hspells.ne_nil (List.append_eq_nil_iff.1 hnil).1

/-- An expression starts and ends where its place says, and it does not start with white space. -/
theorem Phrase.exists_pieces {p : Phrase} {front back : List Lexeme}
    (hlex : lex source = .ok (front ++ (p.lexemes ++ back))) :
    ∃ before mid after last last', source.toList = before ++ (mid ++ after) ∧
      Pieces after last (byteLength before) mid p.lexemes last' ∧
      (p.tree source).span = ⟨byteLength before, byteLength before + byteLength mid⟩ ∧
      mid.takeWhile isSpace = [] := by
  have horder : InOrder p.lexemes := (inOrder_of_lex hlex).within ⟨front, back, by simp⟩
  obtain ⟨⟨l, more, hfirst, hstart⟩, ⟨init, m, hlast, hstop⟩⟩ := Phrase.reaches source horder
  have hl : l.token ≠ .eof := p.noEof l (by simp [hfirst])
  have hm : m.token ≠ .eof := p.noEof m (by simp [hlast])
  have hlexes := lex_eq_ok_iff.1 hlex
  rw [hfirst] at hlexes
  obtain ⟨before, spelled, rest, last, hsource, -, hspells, hends, hspan, hrest⟩ :=
    hlexes.exists_token hl rfl
  rw [Nat.zero_add] at hspan hrest
  have hhere : Lexes last (byteLength before) (spelled ++ rest) (init ++ m :: back) := by
    have hshape : init ++ m :: back = ⟨l.token, l.span⟩ :: (more ++ back) := by
      rw [← List.cons_append, ← hfirst, hlast, List.append_assoc, List.singleton_append]
    rw [hshape, hspan]
    exact .token hspells hends hrest
  obtain ⟨mid, after, hmid, hpieces, hend, -⟩ := hhere.exists_pieces hm
  rw [← hlast] at hpieces
  refine ⟨before, mid, after, last, _, hmid ▸ hsource, hpieces, ?_, ?_⟩
  · rw [← hend, hstop, show byteLength before = (p.tree source).span.start by rw [← hstart, hspan]]
  · obtain ⟨c, cs, rfl⟩ := List.exists_cons_of_ne_nil hspells.ne_nil
    obtain ⟨d, ds, rfl⟩ := List.exists_cons_of_ne_nil (hpieces.ne_nil (by simp [hfirst]))
    obtain ⟨rfl, -⟩ := List.cons.inj hmid
    have hc : isSpace c = false :=
      (hspells.trimmed (Token.isInner_iff.1 (p.inner l (by simp [hfirst]))).2).1
    rw [List.takeWhile_cons, hc]
    rfl

/-- A phrase that is moved to the start of a text and back to its place is the phrase it was. -/
theorem Phrase.Whole.edit_edit {p : Phrase} {rest : List Lexeme} {n : Nat} (h : p.Whole 0 rest)
    (hle : ∀ l ∈ p.lexemes, n ≤ l.span.start ∧ n ≤ l.span.stop) :
    (p.edit (.plain (Span.rebase n 0))).edit (.plain (Span.map (· + n))) = p := by
  have hback : ((p.edit (.plain (Span.rebase n 0))).edit (.plain (Span.map (· + n)))).Whole 0
      rest :=
    (h.edit (Edit.plain_fits _) rfl).edit (Edit.plain_fits _) rfl
  refine (hback.unique h ?_).1
  rw [Phrase.lexemes_plain, Phrase.lexemes_plain, List.map_map]
  congr 1
  refine (List.map_congr_left fun l hl ↦ ?_).trans (List.map_id _)
  obtain ⟨t, start, stop⟩ := l
  obtain ⟨hstart, hstop⟩ := hle _ hl
  have hsub : ∀ x, n ≤ x → x - n + 0 + n = x := fun x hx ↦ by omega
  show (⟨t, ⟨start - n + 0 + n, stop - n + 0 + n⟩⟩ : Lexeme) = ⟨t, start, stop⟩
  rw [hsub start hstart, hsub stop hstop]

theorem InOrder.start_le {ls : List Lexeme} {r : Span} (h : InOrder ls) (hr : r.Reaches ls) :
    ∀ l ∈ ls, r.start ≤ l.span.start ∧ r.start ≤ l.span.stop := by
  obtain ⟨first, more, rfl, hstart⟩ := hr.start
  intro l hl
  have hle : r.start ≤ l.span.start := by
    rcases List.mem_cons.1 hl with rfl | hmore
    · exact hstart.ge
    · exact hstart.ge.trans ((List.pairwise_cons.1 h.increasing).1 l hmore).1.le
  exact ⟨hle, hle.trans (h.start_le_stop l hl)⟩

/-- What is cut out for an expression reads as this expression. -/
theorem Phrase.Whole.exists_reads {p : Phrase} {front back : List Lexeme} (h : p.Whole 0 back)
    (hlex : lex source = .ok (front ++ (p.lexemes ++ back))) :
    ∃ ts e, lex (Parser.captured source (p.tree source).span) = .ok ts ∧
      parseExpression (Parser.captured source (p.tree source).span) ts = .ok e ∧
      e.relocate (Span.map (· + (p.tree source).span.start)) = p.tree source := by
  have horder : InOrder p.lexemes := (inOrder_of_lex hlex).within ⟨front, back, by simp⟩
  have hle := horder.start_le (Phrase.reaches source horder)
  obtain ⟨before, mid, after, last, last', hsource, hpieces, hspan, hspaces⟩ :=
    Phrase.exists_pieces hlex
  have hfills := Phrase.fills_captured hsource hpieces h.leveled h.settled.closed
  rw [hspaces, show byteLength before + byteLength [] = byteLength before from rfl] at hfills
  obtain ⟨ts, htext, hparse⟩ := hfills.reads
  -- nothing is trimmed off in front
  have htrim : trim mid = trimEnd mid := by
    have hmid := List.takeWhile_append_dropWhile (p := isSpace) (l := mid)
    rw [hspaces, List.nil_append] at hmid
    rw [trim, trimStart, hmid]
  obtain ⟨trailing, hmid, -, -⟩ := Piece.exists_trimEnd mid
  have hcut : source.toList = before ++
      ((Parser.captured source ⟨byteLength before, byteLength before + byteLength mid⟩).toList
        ++ (trailing ++ after)) := by
    have hslice : (Span.slice source ⟨byteLength before, byteLength before + byteLength mid⟩).toList
        = mid := between_eq hsource
    rw [Parser.captured, hslice, htrim, String.toList_ofList, ← List.append_assoc (trimEnd mid),
      ← hmid, hsource]
  have htree := hfills.tree_within hcut
  rw [hspan] at hle ⊢
  rw [h.edit_edit hle] at htree
  exact ⟨ts, _, htext, hparse, htree.symm⟩

/-- The text of a definition reads as its body, which stands further behind in the file. -/
theorem exists_reads_of_define {items : List Item} (h : ReadsAs source items) {d : DefineDecl}
    (hd : .define d ∈ items) : ∃ ts e, lex d.text = .ok ts ∧ parseExpression d.text ts = .ok e ∧
      e.relocate (Span.map (· + d.body.span.start)) = d.body := by
  obtain ⟨p, front, back, hlex, hwhole, htree⟩ := exists_item_of_readsAs h hd
  cases p with
  | define word s nameSpan body =>
    cases htree
    have hbody : Phrase.Whole body 0 back := hwhole
    have hlex' : lex source = .ok (front ++ [⟨.defineWord, word⟩, ⟨.name s, nameSpan⟩] ++
        (body.lexemes ++ back)) := by
      rw [hlex, ItemPhrase.lexemes]
      simp
    exact hbody.exists_reads hlex'
  | directive | global | callable => cases htree

/-- What is cut out of a file is read again as what it was: the text of a definition is the body
with every place moved to the left by the start of the body (and no place is to the left of that),
and the text of a calculation is one expression, as are those in it. -/
theorem captured_texts_read {ts : List Lexeme} {items : List Item} (hlex : lex source = .ok ts)
    (hparse : parseFile source ts = .ok items) :
    (∀ d, .define d ∈ items → ∃ inner e, lex d.text = .ok inner ∧
      parseExpression d.text inner = .ok e ∧
      e = d.body.relocate (Span.map (· - d.body.span.start)) ∧
      e.relocate (Span.map (· + d.body.span.start)) = d.body) ∧
    ∀ i ∈ items, ∀ text ∈ i.calculations, ReadsThroughout text := by
  have hreads : ReadsAs source items := ⟨ts, hlex, hparse⟩
  refine ⟨fun d hd ↦ ?_, fun i hi ↦ readsThroughout_of_readsAs hreads hi⟩
  obtain ⟨inner, e, hinner, he, hbody⟩ := exists_reads_of_define hreads hd
  refine ⟨inner, e, hinner, he, ?_, hbody⟩
  have hback : ∀ s : Span, (s.map (· + d.body.span.start)).map (· - d.body.span.start) = s := by
    rintro ⟨start, stop⟩
    show (⟨start + _ - _, stop + _ - _⟩ : Span) = _
    rw [Nat.add_sub_cancel, Nat.add_sub_cancel]
  have hmoved := e.relocate_relocate hback
  rw [hbody] at hmoved
  exact hmoved.symm

namespace Sample

/-- A definition with a text literal, comments and a calculation in a calculation. -/
def nestedCalculations : String :=
  "#define A f(\"x(\", 2) * ( B /* ) */ - #calc( C + #calc(\t-1 // é)\n\t) )) // end
script main() \x7b Print(#calc(-1)) \x7d"

/-- A file that reads when it is tried reads. The lexer is tried on the letters of the file, so that
a long literal is not decoded for it. -/
theorem exists_items {α : Type} (source : String) {letters : List Char}
    (hletters : source = String.ofList letters) (f : List Item → α) (a : α)
    (h : ((lexFrom 0 0 [] letters).toOption.bind fun ts ↦
      (parseFile source ts).toOption.map f) = some a) :
    ∃ ts items, lex source = .ok ts ∧ parseFile source ts = .ok items ∧ f items = a := by
  have hlexes : lex source = lexFrom 0 0 [] letters := by
    rw [lex, hletters, String.toList_ofList]
  rw [← hlexes] at h
  obtain ⟨ts, hlex, hitems⟩ := Option.bind_eq_some_iff.1 h
  obtain ⟨items, hparse, rfl⟩ := Option.map_eq_some_iff.1 hitems
  exact ⟨ts, items, Running.toOption_eq_some.1 hlex, Running.toOption_eq_some.1 hparse, rfl⟩

end Sample

set_option maxRecDepth 2000 in
theorem captured_texts_read_nested :
    ∃ ts items, lex Sample.nestedCalculations = .ok ts ∧
      parseFile Sample.nestedCalculations ts = .ok items ∧
      items.flatMap Item.calculations = ["C + #calc(\t-1 // é)\n\t)", "-1"] ∧
      (∀ d, .define d ∈ items → ∃ inner e, lex d.text = .ok inner ∧
        parseExpression d.text inner = .ok e ∧
        e = d.body.relocate (Span.map (· - d.body.span.start)) ∧
        e.relocate (Span.map (· + d.body.span.start)) = d.body) ∧
      ∀ i ∈ items, ∀ text ∈ i.calculations, ReadsThroughout text := by
  obtain ⟨ts, items, hlex, hparse, htexts⟩ :=
    Sample.exists_items Sample.nestedCalculations rfl (·.flatMap Item.calculations)
      ["C + #calc(\t-1 // é)\n\t)", "-1"] (by decide +kernel)
  exact ⟨ts, items, hlex, hparse, htexts, captured_texts_read hlex hparse⟩

end CharacterScript
