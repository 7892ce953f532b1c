import CharacterScript.Tree.Parser
import CharacterScript.Proofs.Computation
import CharacterScript.Proofs.Lexemes
import CharacterScript.Proofs.TreeParts

/-!
# Where the parts of a tree stand

A reader that starts at ordered lexemes leaves ordered lexemes, and everything in the tree it gives
stands between where it started and where it stopped. From this the items of a file get ranges that
follow each other: a definition never stands inside a body, and what stands in a body stands in the
range of its callable.

## Lists of places

What is in a tree is taken from the list of its places (`Item.spans`), so each statement is about a
list.

## One walk over the reader

The readers are followed once, with a bound on their steps, and what is shown is little: all
places of what was read lie between two offsets, and what is left is in order from the second one
on. That is enough for everything that follows about items, because items are read one behind the
other.
-/

namespace CharacterScript

open Running

/-! ## Ranges

A list of places covers a range if all of them lie in it. Lists put together cover the union of
their ranges. -/

/-- Every span of the list is a non-empty part of the range. -/
def Covers (lo hi : Nat) (spans : List Span) : Prop :=
  ∀ s ∈ spans, lo ≤ s.start ∧ s.start < s.stop ∧ s.stop ≤ hi

namespace Covers

variable {lo hi : Nat} {s r : Span} {spans more : List Span}

theorem nil : Covers lo hi [] := by
  intro s hs
  cases hs

theorem cons (hs : lo ≤ s.start ∧ s.start < s.stop ∧ s.stop ≤ hi) (h : Covers lo hi spans) :
    Covers lo hi (s :: spans) := by
  intro r hr
  rcases List.mem_cons.1 hr with rfl | hr
  · exact hs
  · exact h r hr

theorem append (h : Covers lo hi spans) (h' : Covers lo hi more) :
    Covers lo hi (spans ++ more) := by
  intro s hs
  rcases List.mem_append.1 hs with hs | hs
  · exact h s hs
  · exact h' s hs

theorem mono {lo' hi' : Nat} (h : Covers lo hi spans) (hlo : lo' ≤ lo) (hhi : hi ≤ hi') :
    Covers lo' hi' spans := by
  intro s hs
  obtain ⟨h₁, h₂, h₃⟩ := h s hs
  exact ⟨hlo.trans h₁, h₂, h₃.trans hhi⟩

/-- The span that covers two others stays in their range. -/
theorem merge (hs : lo ≤ s.start ∧ s.start < s.stop ∧ s.stop ≤ hi)
    (hr : lo ≤ r.start ∧ r.start < r.stop ∧ r.stop ≤ hi) :
    lo ≤ (s.merge r).start ∧ (s.merge r).start < (s.merge r).stop ∧ (s.merge r).stop ≤ hi := by
  simp only [Span.merge]
  omega

/-- What stands in front of a range, drawn out to one of its spans, can be put before all of
them. -/
theorem lead {mid : Nat} (hs : lo ≤ s.start ∧ s.start < s.stop ∧ s.stop ≤ mid)
    (h : Covers mid hi spans) (hr : r ∈ spans) : Covers lo hi (s.merge r :: spans) := by
  have h' := h.mono (by omega : lo ≤ mid) (Nat.le_refl hi)
  obtain ⟨hmid, hne, hhi⟩ := h r hr
  exact .cons (merge ⟨hs.1, hs.2.1, by omega⟩ (h' r hr)) h'

end Covers

/-- A reader that starts at `lo` gives a value whose places are in a range from `lo` on, and leaves
lexemes that are ordered from the end of the range on. -/
def Stays {α : Type} (spans : α → List Span) (lo : Nat)
    (x : Except SyntaxError (Parser.Read α)) : Prop :=
  ∀ {a ts}, x = .ok (a, ts) → ∃ hi, lo ≤ hi ∧ Covers lo hi (spans a) ∧ Ordered hi ts

/-- The same expression at another place has that place and the old inner ones. -/
theorem Covers.withSpan {lo hi : Nat} {e : Expr} {span : Span} (h : Covers lo hi e.spans)
    (hs : lo ≤ span.start ∧ span.start < span.stop ∧ span.stop ≤ hi) :
    Covers lo hi (e.withSpan span).spans := by
  cases e with
  | number | name | calculation =>
    rw [Expr.withSpan, Expr.spans]
    exact .cons hs .nil
  | call | not | binary =>
    rw [Expr.withSpan, Expr.spans]
    rw [Expr.spans] at h
    exact .cons hs fun r hr ↦ h r (List.mem_cons_of_mem _ hr)

/-! ## One lexeme -/

namespace Parser

variable {source : String} {lo : Nat} {ts : List Lexeme}

theorem fail_ne_ok {α : Type} {expected : Expected} {a : α} : fail expected ts ≠ .ok a := by
  cases ts <;> simp [fail]

/-- The first of ordered lexemes, if it is not the end mark, is a range of its own. -/
private theorem ordered_cons {t : Token} {span : Span} (h : Ordered lo (⟨t, span⟩ :: ts))
    (ht : t ≠ .eof) :
    (lo ≤ span.start ∧ span.start < span.stop ∧ span.stop ≤ span.stop) ∧ Ordered span.stop ts :=
  ⟨⟨h.1, h.2.1.start_lt_stop ht, Nat.le_refl _⟩, h.2.2⟩

theorem mark_eq_ok {p : Punct} {span : Span} {ts' : List Lexeme} :
    mark p ts = .ok (span, ts') ↔ ts = ⟨.punct p, span⟩ :: ts' := by
  constructor
  · intro h
    rw [mark.eq_def] at h
    split at h
    · split at h
      next hp =>
        cases h
        rw [hp]
      · exact absurd h fail_ne_ok
    · exact absurd h fail_ne_ok
  · rintro rfl
    rw [mark, if_pos rfl]

theorem name_eq_ok {expected : Expected} {s : String} {span : Span} {ts' : List Lexeme} :
    name expected ts = .ok ((s, span), ts') ↔ ts = ⟨.name s, span⟩ :: ts' := by
  constructor
  · intro h
    rw [name.eq_def] at h
    split at h
    · cases h
      rfl
    · exact absurd h fail_ne_ok
  · rintro rfl
    rw [name]

theorem mark_stays {p : Punct} (h : Ordered lo ts) : Stays (fun s ↦ [s]) lo (mark p ts) := by
  intro span ts' hmark
  rw [mark_eq_ok] at hmark
  subst hmark
  obtain ⟨hspan, hrest⟩ := ordered_cons h (by simp)
  exact ⟨_, by omega, .cons hspan .nil, hrest⟩

theorem name_stays {expected : Expected} (h : Ordered lo ts) :
    Stays (fun s ↦ [s.2]) lo (name expected ts) := by
  rintro ⟨s, span⟩ ts' hname
  rw [name_eq_ok] at hname
  subst hname
  obtain ⟨hspan, hrest⟩ := ordered_cons h (by simp)
  exact ⟨_, by omega, .cons hspan .nil, hrest⟩

private theorem operator?_ordered {level : Nat} {op : BinOp} {ts' : List Lexeme}
    (h : Ordered lo ts) (hop : operator? level ts = some (op, ts')) : Ordered lo ts' := by
  rw [operator?.eq_def] at hop
  split at hop
  · split at hop
    · split at hop
      · cases hop
        obtain ⟨hspan, hrest⟩ := ordered_cons h (by simp)
        exact hrest.mono (by omega)
      · cases hop
    · cases hop
  · cases hop

/-! ## Expressions -/

/-- Continuing an operand level by level stays behind it if continuing it at one level does. -/
private theorem climb_stays
    {next : Nat → Expr → List Lexeme → Except SyntaxError (Read Expr)}
    (hnext : ∀ {level left ts lo mid}, lo ≤ mid → Covers lo mid left.spans → Ordered mid ts →
      Stays Expr.spans lo (next level left ts)) (k : Nat) :
    ∀ {n left ts lo mid}, lo ≤ mid → Covers lo mid left.spans → Ordered mid ts →
      Stays Expr.spans lo (climb next k n left ts) := by
  intro n
  induction n with
  | zero =>
    intro left ts lo mid hle hleft hts e ts' h
    rw [climb] at h
    cases h
    exact ⟨mid, hle, hleft, hts⟩
  | succ n ih =>
    intro left ts lo mid hle hleft hts e ts' h
    rw [climb] at h
    obtain ⟨⟨left', ts₁⟩, hone, hrest⟩ := exceptBind_eq_ok.1 h
    obtain ⟨mid', hle', hleft', hts'⟩ := hnext hle hleft hts hone
    exact ih hle' hleft' hts' hrest

/-- What is proved of all readers of expressions at once, for one bound on their steps. -/
private structure ExprReaders (source : String) (fuel : Nat) : Prop where
  /-- An expression from any level on. -/
  expr : ∀ {k ts lo}, Ordered lo ts → Stays Expr.spans lo (expr source fuel k ts)
  /-- Operators of one level, behind a first operand that stands in front of them. -/
  chain : ∀ {level left ts lo mid}, lo ≤ mid → Covers lo mid left.spans → Ordered mid ts →
    Stays Expr.spans lo (chain source fuel level left ts)
  /-- An operand. -/
  atom : ∀ {ts lo}, Ordered lo ts → Stays Expr.spans lo (atom source fuel ts)
  /-- A call. -/
  call : ∀ {ts lo}, Ordered lo ts → Stays Call.spans lo (call source fuel ts)
  /-- Arguments, behind those already read. -/
  args : ∀ {done ts lo mid}, lo ≤ mid → Covers lo mid (argSpans done) → Ordered mid ts →
    Stays argSpans lo (args source fuel done ts)

private theorem expr_stays {fuel : Nat} (ih : ExprReaders source fuel) {k : Nat}
    (h : Ordered lo ts) : Stays Expr.spans lo (expr source (fuel + 1) k ts) := by
  intro e ts' he
  rw [expr] at he
  obtain ⟨⟨left, ts₁⟩, hatom, hclimb⟩ := exceptBind_eq_ok.1 he
  obtain ⟨mid, hle, hleft, hts₁⟩ := ih.atom h hatom
  exact climb_stays ih.chain k hle hleft hts₁ hclimb

private theorem chain_stays {fuel : Nat} (ih : ExprReaders source fuel) {level mid : Nat}
    {left : Expr} (hle : lo ≤ mid) (hleft : Covers lo mid left.spans) (h : Ordered mid ts) :
    Stays Expr.spans lo (chain source (fuel + 1) level left ts) := by
  intro e ts' he
  rw [chain] at he
  split at he
  · cases he
    exact ⟨mid, hle, hleft, h⟩
  next op ts₁ hop =>
    obtain ⟨⟨right, ts₂⟩, hright, hchain⟩ := exceptBind_eq_ok.1 he
    obtain ⟨hi, hle', hspans, hts₂⟩ := ih.expr (operator?_ordered h hop) hright
    have hleft' := hleft.mono (Nat.le_refl lo) hle'
    have hright' := hspans.mono hle (Nat.le_refl hi)
    -- the two operands become the left operand of what follows
    refine ih.chain (hle.trans hle') ?_ hts₂ hchain
    rw [Expr.join, Expr.spans]
    exact .cons (Covers.merge (hleft' _ left.span_mem_spans) (hright' _ right.span_mem_spans))
      (.append hleft' hright')

/-- A call as an expression has the place of the call. -/
private theorem callExpr_stays {fuel : Nat} (ih : ExprReaders source fuel) (h : Ordered lo ts) :
    Stays Expr.spans lo (do
      let (c, ts) ← call source fuel ts
      .ok (.call c c.span, ts)) := by
  intro e ts' he
  obtain ⟨⟨c, ts₁⟩, hcall, he⟩ := exceptBind_eq_ok.1 he
  cases he
  obtain ⟨hi, hle, hcover, hts₁⟩ := ih.call h hcall
  refine ⟨hi, hle, ?_, hts₁⟩
  rw [Expr.spans]
  exact .cons (hcover _ c.span_mem_spans) hcover

private theorem atom_stays {fuel : Nat} (ih : ExprReaders source fuel) (h : Ordered lo ts) :
    Stays Expr.spans lo (atom source (fuel + 1) ts) := by
  intro e ts' he
  rw [atom.eq_def] at he
  dsimp only at he
  split at he
  · -- `!` and an expression
    obtain ⟨hspan, hrest⟩ := ordered_cons h (by simp)
    obtain ⟨⟨inner, ts₁⟩, hinner, he⟩ := exceptBind_eq_ok.1 he
    cases he
    obtain ⟨hi, hle, hcover, hts₁⟩ := ih.expr hrest hinner
    refine ⟨hi, by omega, ?_, hts₁⟩
    rw [Expr.spans]
    exact hcover.lead hspan inner.span_mem_spans
  · -- parentheses
    obtain ⟨hspan, hrest⟩ := ordered_cons h (by simp)
    obtain ⟨⟨inner, ts₁⟩, hinner, he⟩ := exceptBind_eq_ok.1 he
    obtain ⟨⟨close, ts₂⟩, hclose, he⟩ := exceptBind_eq_ok.1 he
    cases he
    obtain ⟨mid, hle, hcover, hts₁⟩ := ih.expr hrest hinner
    obtain ⟨hi, hle', hcover', hts₂⟩ := mark_stays hts₁ hclose
    have hclose' := hcover'.mono (by omega : lo ≤ mid) (Nat.le_refl hi) close (by simp)
    refine ⟨hi, by omega, ?_, hts₂⟩
    exact (hcover.mono (by omega) hle').withSpan (Covers.merge (by omega) hclose')
  · cases he
    obtain ⟨hspan, hrest⟩ := ordered_cons h (by simp)
    exact ⟨_, by omega, .cons hspan .nil, hrest⟩
  · cases he
    obtain ⟨hspan, hrest⟩ := ordered_cons h (by simp)
    exact ⟨_, by omega, .cons hspan .nil, hrest⟩
  · -- `#calc`
    obtain ⟨hspan, hrest⟩ := ordered_cons h (by simp)
    obtain ⟨⟨opening, ts₁⟩, hopening, he⟩ := exceptBind_eq_ok.1 he
    obtain ⟨⟨inner, ts₂⟩, hinner, he⟩ := exceptBind_eq_ok.1 he
    obtain ⟨⟨close, ts₃⟩, hclose, he⟩ := exceptBind_eq_ok.1 he
    cases he
    obtain ⟨mid₁, hle₁, -, hts₁⟩ := mark_stays hrest hopening
    obtain ⟨mid₂, hle₂, -, hts₂⟩ := ih.expr hts₁ hinner
    obtain ⟨hi, hle₃, hcover, hts₃⟩ := mark_stays hts₂ hclose
    have hclose' := hcover.mono (by omega : lo ≤ mid₂) (Nat.le_refl hi) close (by simp)
    refine ⟨hi, by omega, ?_, hts₃⟩
    rw [Expr.spans]
    exact .cons (Covers.merge (by omega) hclose') .nil
  · exact callExpr_stays ih h he
  · exact callExpr_stays ih h he
  · cases he
    obtain ⟨hspan, hrest⟩ := ordered_cons h (by simp)
    exact ⟨_, by omega, .cons hspan .nil, hrest⟩
  · -- `@` and a name
    obtain ⟨hspan, hrest⟩ := ordered_cons h (by simp)
    obtain ⟨⟨⟨s, nameSpan⟩, ts₁⟩, hname, he⟩ := exceptBind_eq_ok.1 he
    cases he
    obtain ⟨hi, hle, hcover, hts₁⟩ := name_stays hrest hname
    have hname' := hcover.mono (by omega : lo ≤ _) (Nat.le_refl hi) nameSpan (by simp)
    refine ⟨hi, by omega, ?_, hts₁⟩
    rw [Expr.spans]
    exact .cons (Covers.merge (by omega) hname') .nil
  · exact absurd he fail_ne_ok

/-- Going on behind an argument: a comma and more arguments, or the end of the list. -/
private theorem argsTail_stays {fuel : Nat} (ih : ExprReaders source fuel) {hi : Nat}
    {done as : List Arg} {ts' : List Lexeme} (hle : lo ≤ hi)
    (hall : Covers lo hi (argSpans done)) (h : Ordered hi ts)
    (hrest : (match ts with
      | ⟨.punct .comma, _⟩ :: ts => args source fuel done ts
      | ts => .ok (done.reverse, ts)) = .ok (as, ts')) :
    ∃ hi, lo ≤ hi ∧ Covers lo hi (argSpans as) ∧ Ordered hi ts' := by
  split at hrest
  · obtain ⟨hspan, hts⟩ := ordered_cons h (by simp)
    exact ih.args (by omega) (hall.mono (Nat.le_refl lo) (by omega)) hts hrest
  · cases hrest
    refine ⟨hi, hle, ?_, h⟩
    intro s hs
    obtain ⟨a, ha, hs⟩ := mem_argSpans.1 hs
    exact hall s (mem_argSpans.2 ⟨a, List.mem_reverse.1 ha, hs⟩)

private theorem args_stays {fuel : Nat} (ih : ExprReaders source fuel) {mid : Nat}
    {done : List Arg} (hle : lo ≤ mid) (hdone : Covers lo mid (argSpans done))
    (h : Ordered mid ts) : Stays argSpans lo (args source (fuel + 1) done ts) := by
  intro as ts' hargs
  -- arguments are gathered in reverse, and the order of spans does not matter here
  have hcons : ∀ {hi : Nat} {arg : Arg}, mid ≤ hi → Covers mid hi arg.spans →
      Covers lo hi (argSpans (arg :: done)) := by
    intro hi arg hle' harg
    rw [argSpans]
    exact .append (harg.mono hle (Nat.le_refl hi)) (hdone.mono (Nat.le_refl lo) hle')
  rw [args.eq_def] at hargs
  dsimp only at hargs
  split at hargs
  · obtain ⟨hspan, hts⟩ := ordered_cons h (by simp)
    exact argsTail_stays ih (by omega) (hcons (by omega) (.cons hspan .nil)) hts hargs
  · obtain ⟨⟨e, ts₁⟩, he, hargs⟩ := exceptBind_eq_ok.1 hargs
    obtain ⟨hi, hle', hcover, hts₁⟩ := ih.expr h he
    have hcover' : Covers mid hi (Arg.expr e).spans := hcover
    exact argsTail_stays ih (by omega) (hcons hle' hcover') hts₁ hargs

/-- What is left of a call behind its opening parenthesis. -/
private theorem callTail_stays {mid : Nat} {s : String} {start nameSpan : Span}
    {collapse : Bool} {c : Call} {ts' : List Lexeme} (hle : lo ≤ mid)
    (hstart : lo ≤ start.start ∧ start.start < start.stop ∧ start.stop ≤ mid)
    (hname : lo ≤ nameSpan.start ∧ nameSpan.start < nameSpan.stop ∧ nameSpan.stop ≤ mid)
    {as : List Arg} (has : Covers lo mid (argSpans as)) (h : Ordered mid ts)
    (hrest : (do
      let (close, ts) ← mark .closeParen ts
      .ok (Call.mk s nameSpan collapse as (start.merge close), ts)) = .ok (c, ts')) :
    ∃ hi, lo ≤ hi ∧ Covers lo hi c.spans ∧ Ordered hi ts' := by
  obtain ⟨⟨close, ts₁⟩, hclose, hrest⟩ := exceptBind_eq_ok.1 hrest
  cases hrest
  obtain ⟨hi, hle', hcover, hts₁⟩ := mark_stays h hclose
  have hclose' := hcover.mono hle (Nat.le_refl hi) close (by simp)
  refine ⟨hi, by omega, ?_, hts₁⟩
  rw [Call.spans]
  exact .cons (Covers.merge (by omega) hclose')
    (.cons (by omega) (has.mono (Nat.le_refl lo) hle'))

/-- Whether `collapse` comes first, and the lexemes behind it if it does. -/
def afterCollapse : List Lexeme → Bool × List Lexeme
  | ⟨.keyword .collapse, _⟩ :: ts => (true, ts)
  | ts => (false, ts)

theorem call_succ (source : String) (fuel : Nat) (ts : List Lexeme) :
    call source (fuel + 1) ts = (do
      let ((s, nameSpan), ts₁) ← name .callTarget (afterCollapse ts).2
      let (_, ts₂) ← mark .openParen ts₁
      let (as, ts₃) ← match ts₂ with
        | ⟨.punct .closeParen, _⟩ :: _ => .ok ([], ts₂)
        | ts => args source fuel [] ts
      let (close, ts₄) ← mark .closeParen ts₃
      .ok (.mk s nameSpan (afterCollapse ts).1 as ((here ts).merge close), ts₄)) := by
  rw [call.eq_def]
  rfl

/-- The lexemes behind an optional `collapse` are a name, so the first lexeme of the call has a
place that stops no later than the name. -/
private theorem afterCollapse_ordered {s : String} {nameSpan : Span} {ts' : List Lexeme}
    (h : Ordered lo ts) (hts : (afterCollapse ts).2 = ⟨.name s, nameSpan⟩ :: ts') :
    (lo ≤ (here ts).start ∧ (here ts).start < (here ts).stop ∧ (here ts).stop ≤ nameSpan.stop) ∧
      Ordered lo (⟨.name s, nameSpan⟩ :: ts') := by
  rw [afterCollapse.eq_def] at hts
  split at hts
  next span _ =>
    dsimp only at hts
    subst hts
    obtain ⟨hspan, hrest⟩ := ordered_cons h (by simp)
    obtain ⟨hspan', -⟩ := ordered_cons hrest (by simp)
    have hstop : span.stop ≤ nameSpan.stop := by omega
    exact ⟨⟨hspan.1, hspan.2.1, hstop⟩, hrest.mono (by omega)⟩
  · dsimp only at hts
    subst hts
    exact ⟨(ordered_cons h (by simp)).1, h⟩

private theorem call_stays {fuel : Nat} (ih : ExprReaders source fuel) (h : Ordered lo ts) :
    Stays Call.spans lo (call source (fuel + 1) ts) := by
  intro c ts' hcall
  rw [call_succ] at hcall
  obtain ⟨⟨⟨s, nameSpan⟩, ts₁⟩, hname, hcall₁⟩ := exceptBind_eq_ok.1 hcall
  obtain ⟨⟨opening, ts₂⟩, hopen, hcall₂⟩ := exceptBind_eq_ok.1 hcall₁
  rw [name_eq_ok] at hname
  rw [mark_eq_ok] at hopen
  obtain ⟨hhere, hts₀⟩ := afterCollapse_ordered h hname
  obtain ⟨hname', hts₁⟩ := ordered_cons hts₀ (by simp)
  rw [hopen] at hts₁
  obtain ⟨hopening, hts₂⟩ := ordered_cons hts₁ (by simp)
  dsimp only at hcall₂
  split at hcall₂
  · exact callTail_stays (by omega) ⟨hhere.1, hhere.2.1, by omega⟩
      ⟨hname'.1, hname'.2.1, by omega⟩ .nil hts₂ hcall₂
  · obtain ⟨⟨as, ts₃⟩, hargs, hcall₃⟩ := exceptBind_eq_ok.1 hcall₂
    obtain ⟨mid, hle, hcover, hts₃⟩ := ih.args (Nat.le_refl opening.stop) .nil hts₂ hargs
    exact callTail_stays (by omega) ⟨hhere.1, hhere.2.1, by omega⟩
      ⟨hname'.1, hname'.2.1, by omega⟩ (hcover.mono (by omega) (Nat.le_refl mid)) hts₃ hcall₃

private theorem exprReaders (source : String) : ∀ fuel, ExprReaders source fuel
  | 0 =>
    { expr := fun _ _ _ h ↦ absurd (by rwa [expr] at h) fail_ne_ok
      chain := fun _ _ _ _ _ h ↦ absurd (by rwa [chain] at h) fail_ne_ok
      atom := fun _ _ _ h ↦ absurd (by rwa [atom] at h) fail_ne_ok
      call := fun _ _ _ h ↦ absurd (by rwa [call] at h) fail_ne_ok
      args := fun _ _ _ _ _ h ↦ absurd (by rwa [args] at h) fail_ne_ok }
  | fuel + 1 =>
    have ih := exprReaders source fuel
    ⟨expr_stays ih, chain_stays ih, atom_stays ih, call_stays ih, args_stays ih⟩

theorem expr_spans {fuel k : Nat} (h : Ordered lo ts) :
    Stays Expr.spans lo (expr source fuel k ts) :=
  (exprReaders source fuel).expr h

theorem call_spans {fuel : Nat} (h : Ordered lo ts) :
    Stays Call.spans lo (call source fuel ts) :=
  (exprReaders source fuel).call h

/-! ## Statements -/

private theorem assignment?_ordered {op : Option BinOp} {ts' : List Lexeme} (h : Ordered lo ts)
    (hassign : assignment? ts = some (op, ts')) : Ordered lo ts' := by
  rw [assignment?.eq_def] at hassign
  split at hassign
  · cases hassign
    exact h
  · obtain ⟨_, -, heq⟩ := Option.map_eq_some_iff.1 hassign
    cases heq
    obtain ⟨hspan, hrest⟩ := ordered_cons h (by simp)
    exact hrest.mono (by omega)
  · cases hassign

/-- What is proved of all readers of statements at once, for one bound on their steps. -/
private structure StmtReaders (source : String) (fuel : Nat) : Prop where
  /-- A block. -/
  block : ∀ {ts lo}, Ordered lo ts → Stays Block.spans lo (block source fuel ts)
  /-- The statements of a block, behind those already read. -/
  stmts : ∀ {done ts lo mid}, lo ≤ mid → Covers lo mid (stmtSpans done) → Ordered mid ts →
    Stays stmtSpans lo (stmts source fuel done ts)
  /-- A statement. -/
  stmt : ∀ {ts lo}, Ordered lo ts → Stays Stmt.spans lo (stmt source fuel ts)
  /-- What comes behind a condition. -/
  branches : ∀ {ts lo}, Ordered lo ts → Stays Branches.spans lo (branches source fuel ts)

private theorem block_stays {fuel : Nat} (ih : StmtReaders source fuel) (h : Ordered lo ts) :
    Stays Block.spans lo (block source (fuel + 1) ts) := by
  intro b ts' hb
  rw [block] at hb
  obtain ⟨⟨start, ts₁⟩, hstart, hb₁⟩ := exceptBind_eq_ok.1 hb
  obtain ⟨⟨ss, ts₂⟩, hss, hb₂⟩ := exceptBind_eq_ok.1 hb₁
  obtain ⟨⟨close, ts₃⟩, hclose, hb₃⟩ := exceptBind_eq_ok.1 hb₂
  cases hb₃
  obtain ⟨mid₁, hle₁, hcover₁, hts₁⟩ := mark_stays h hstart
  obtain ⟨mid₂, hle₂, hcover₂, hts₂⟩ := ih.stmts (Nat.le_refl mid₁) .nil hts₁ hss
  obtain ⟨hi, hle₃, hcover₃, hts₃⟩ := mark_stays hts₂ hclose
  have hstart' := hcover₁.mono (Nat.le_refl lo) (by omega : mid₁ ≤ hi) start (by simp)
  have hclose' := hcover₃.mono (by omega : lo ≤ mid₂) (Nat.le_refl hi) close (by simp)
  refine ⟨hi, by omega, ?_, hts₃⟩
  rw [Block.spans]
  exact .cons (Covers.merge hstart' hclose') (hcover₂.mono hle₁ hle₃)

private theorem stmts_stays {fuel : Nat} (ih : StmtReaders source fuel) {mid : Nat}
    {done : List Stmt} (hle : lo ≤ mid) (hdone : Covers lo mid (stmtSpans done))
    (h : Ordered mid ts) : Stays stmtSpans lo (stmts source (fuel + 1) done ts) := by
  intro ss ts' hss
  have hreverse : Covers lo mid (stmtSpans done.reverse) := by
    intro s hs
    obtain ⟨r, hr, hs⟩ := mem_stmtSpans.1 hs
    exact hdone s (mem_stmtSpans.2 ⟨r, List.mem_reverse.1 hr, hs⟩)
  rw [stmts.eq_def] at hss
  dsimp only at hss
  split at hss
  · cases hss
    exact ⟨mid, hle, hreverse, h⟩
  · cases hss
    exact ⟨mid, hle, hreverse, h⟩
  · cases hss
    exact ⟨mid, hle, hreverse, h⟩
  · obtain ⟨⟨s, ts₁⟩, hs, hss₁⟩ := exceptBind_eq_ok.1 hss
    obtain ⟨hi, hle', hcover, hts₁⟩ := ih.stmt h hs
    refine ih.stmts (hle.trans hle') ?_ hts₁ hss₁
    rw [stmtSpans]
    exact .append (hcover.mono hle (Nat.le_refl hi)) (hdone.mono (Nat.le_refl lo) hle')

private theorem branches_stays {fuel : Nat} (ih : StmtReaders source fuel) (h : Ordered lo ts) :
    Stays Branches.spans lo (branches source (fuel + 1) ts) := by
  intro b ts' hb
  rw [branches.eq_def] at hb
  dsimp only at hb
  split at hb
  · obtain ⟨hspan, hrest⟩ := ordered_cons h (by simp)
    obtain ⟨⟨cond, ts₁⟩, hcond, hb₁⟩ := exceptBind_eq_ok.1 hb
    obtain ⟨⟨body, ts₂⟩, hbody, hb₂⟩ := exceptBind_eq_ok.1 hb₁
    obtain ⟨⟨rest, ts₃⟩, hrest', hb₃⟩ := exceptBind_eq_ok.1 hb₂
    cases hb₃
    obtain ⟨mid₁, hle₁, hcover₁, hts₁⟩ := expr_spans hrest hcond
    obtain ⟨mid₂, hle₂, hcover₂, hts₂⟩ := ih.block hts₁ hbody
    obtain ⟨hi, hle₃, hcover₃, hts₃⟩ := ih.branches hts₂ hrest'
    refine ⟨hi, by omega, ?_, hts₃⟩
    rw [Branches.spans]
    exact .append (.append (hcover₁.mono (by omega) (by omega)) (hcover₂.mono (by omega) hle₃))
      (hcover₃.mono (by omega) (Nat.le_refl hi))
  · obtain ⟨hspan, hrest⟩ := ordered_cons h (by simp)
    obtain ⟨⟨body, ts₁⟩, hbody, hb₁⟩ := exceptBind_eq_ok.1 hb
    cases hb₁
    obtain ⟨hi, hle, hcover, hts₁⟩ := ih.block hrest hbody
    exact ⟨hi, by omega, hcover.mono (by omega) (Nat.le_refl hi), hts₁⟩
  · cases hb
    exact ⟨lo, Nat.le_refl lo, .nil, h⟩

/-- The span of the last body of a chain is one of its places, or the span given. -/
private theorem lastSpan_within {hi : Nat} : ∀ {rest : Branches} {before : Span},
    Covers lo hi rest.spans →
    (lo ≤ before.start ∧ before.start < before.stop ∧ before.stop ≤ hi) →
    lo ≤ (rest.lastSpan before).start ∧ (rest.lastSpan before).start < (rest.lastSpan before).stop ∧
      (rest.lastSpan before).stop ≤ hi
  | .done, _, _, hbefore => hbefore
  | .else_ body, _, hrest, _ => hrest _ body.span_mem_spans
  | .elif cond body rest, _, hrest, _ => by
    rw [Branches.spans] at hrest
    rw [Branches.lastSpan]
    refine lastSpan_within (fun s hs ↦ hrest s (by simp [hs])) (hrest _ ?_)
    simp [body.span_mem_spans]

private theorem stmt_stays {fuel : Nat} (ih : StmtReaders source fuel) (h : Ordered lo ts) :
    Stays Stmt.spans lo (stmt source (fuel + 1) ts) := by
  intro s ts' hs
  rw [stmt.eq_def] at hs
  dsimp only at hs
  split at hs
  · cases hs
    obtain ⟨hspan, hrest⟩ := ordered_cons h (by simp)
    exact ⟨_, by omega, .cons hspan .nil, hrest⟩
  · obtain ⟨⟨c, ts₁⟩, hcall, hs₁⟩ := exceptBind_eq_ok.1 hs
    cases hs₁
    exact call_spans h hcall
  · -- `let`
    obtain ⟨hspan, hrest⟩ := ordered_cons h (by simp)
    obtain ⟨⟨⟨x, nameSpan⟩, ts₁⟩, hname, hs₁⟩ := exceptBind_eq_ok.1 hs
    obtain ⟨⟨eq, ts₂⟩, heq, hs₂⟩ := exceptBind_eq_ok.1 hs₁
    obtain ⟨⟨value, ts₃⟩, hvalue, hs₃⟩ := exceptBind_eq_ok.1 hs₂
    cases hs₃
    obtain ⟨mid₁, hle₁, hcover₁, hts₁⟩ := name_stays hrest hname
    obtain ⟨mid₂, hle₂, -, hts₂⟩ := mark_stays hts₁ heq
    obtain ⟨hi, hle₃, hcover₃, hts₃⟩ := expr_spans hts₂ hvalue
    have hvalue' := hcover₃.mono (by omega : lo ≤ mid₂) (Nat.le_refl hi)
    refine ⟨hi, by omega, ?_, hts₃⟩
    rw [Stmt.spans]
    exact .cons (Covers.merge (by omega) (hvalue' _ value.span_mem_spans))
      (.cons (hcover₁.mono (by omega) (by omega) nameSpan (by simp)) hvalue')
  · -- `return`
    obtain ⟨hspan, hrest⟩ := ordered_cons h (by simp)
    split at hs
    · obtain ⟨⟨value, ts₁⟩, hvalue, hs₁⟩ := exceptBind_eq_ok.1 hs
      cases hs₁
      obtain ⟨hi, hle, hcover, hts₁⟩ := expr_spans hrest hvalue
      refine ⟨hi, by omega, ?_, hts₁⟩
      rw [Stmt.spans]
      exact hcover.lead hspan value.span_mem_spans
    · cases hs
      exact ⟨_, by omega, .cons hspan .nil, hrest⟩
  · -- `loop`
    obtain ⟨hspan, hrest⟩ := ordered_cons h (by simp)
    obtain ⟨⟨body, ts₁⟩, hbody, hs₁⟩ := exceptBind_eq_ok.1 hs
    cases hs₁
    obtain ⟨hi, hle, hcover, hts₁⟩ := ih.block hrest hbody
    refine ⟨hi, by omega, ?_, hts₁⟩
    rw [Stmt.spans]
    exact hcover.lead hspan body.span_mem_spans
  · -- `if`
    obtain ⟨hspan, hrest⟩ := ordered_cons h (by simp)
    obtain ⟨⟨cond, ts₁⟩, hcond, hs₁⟩ := exceptBind_eq_ok.1 hs
    obtain ⟨⟨body, ts₂⟩, hbody, hs₂⟩ := exceptBind_eq_ok.1 hs₁
    obtain ⟨⟨rest, ts₃⟩, hrest', hs₃⟩ := exceptBind_eq_ok.1 hs₂
    cases hs₃
    obtain ⟨mid₁, hle₁, hcover₁, hts₁⟩ := expr_spans hrest hcond
    obtain ⟨mid₂, hle₂, hcover₂, hts₂⟩ := ih.block hts₁ hbody
    obtain ⟨hi, hle₃, hcover₃, hts₃⟩ := ih.branches hts₂ hrest'
    have hcond' := hcover₁.mono (by omega : lo ≤ _) (by omega : mid₁ ≤ hi)
    have hbody' := hcover₂.mono (by omega : lo ≤ mid₁) hle₃
    have hrest'' := hcover₃.mono (by omega : lo ≤ mid₂) (Nat.le_refl hi)
    refine ⟨hi, by omega, ?_, hts₃⟩
    rw [Stmt.spans]
    exact .cons (Covers.merge (by omega)
      (lastSpan_within hrest'' (hbody' _ body.span_mem_spans)))
      (.append (.append hcond' hbody') hrest'')
  · obtain ⟨⟨c, ts₁⟩, hcall, hs₁⟩ := exceptBind_eq_ok.1 hs
    cases hs₁
    exact call_spans h hcall
  · -- a name, alone or with something assigned to it
    obtain ⟨hspan, hrest⟩ := ordered_cons h (by simp)
    split at hs
    · cases hs
      exact ⟨_, by omega, .cons hspan .nil, hrest⟩
    next op ts₀ hassign =>
      obtain ⟨⟨eq, ts₁⟩, heq, hs₁⟩ := exceptBind_eq_ok.1 hs
      obtain ⟨⟨value, ts₂⟩, hvalue, hs₂⟩ := exceptBind_eq_ok.1 hs₁
      cases hs₂
      obtain ⟨mid, hle, -, hts₁⟩ := mark_stays (assignment?_ordered hrest hassign) heq
      obtain ⟨hi, hle', hcover, hts₂⟩ := expr_spans hts₁ hvalue
      have hvalue' := hcover.mono (by omega : lo ≤ mid) (Nat.le_refl hi)
      refine ⟨hi, by omega, ?_, hts₂⟩
      rw [Stmt.spans]
      exact .cons (Covers.merge (by omega) (hvalue' _ value.span_mem_spans))
        (.cons (by omega) hvalue')
  · exact absurd hs fail_ne_ok

private theorem stmtReaders (source : String) : ∀ fuel, StmtReaders source fuel
  | 0 =>
    { block := fun _ _ _ h ↦ absurd (by rwa [block] at h) fail_ne_ok
      stmts := fun _ _ _ _ _ h ↦ absurd (by rwa [stmts] at h) fail_ne_ok
      stmt := fun _ _ _ h ↦ absurd (by rwa [stmt] at h) fail_ne_ok
      branches := fun hts _ _ h ↦ by
        rw [branches] at h
        cases h
        exact ⟨_, Nat.le_refl _, .nil, hts⟩ }
  | fuel + 1 =>
    have ih := stmtReaders source fuel
    ⟨block_stays ih, stmts_stays ih, stmt_stays ih, branches_stays ih⟩

theorem block_spans {fuel : Nat} (h : Ordered lo ts) :
    Stays Block.spans lo (block source fuel ts) :=
  (stmtReaders source fuel).block h

/-! ## Files

The ranges of items follow each other, so an offset inside of one is in no other. -/

private theorem params_ordered : ∀ (ts : List Lexeme) (done ps : List Param) (ts' : List Lexeme)
    (lo : Nat), Ordered lo ts → params done ts = .ok (ps, ts') → ∃ hi, lo ≤ hi ∧ Ordered hi ts'
  | [], _, _, _, _, _, h => absurd (by rwa [params] at h) fail_ne_ok
  | l :: ts, done, ps, ts', lo, hts, h => by
    have hstop : lo ≤ l.span.stop := hts.1.trans hts.2.1.start_le_stop
    rw [params.eq_def] at h
    dsimp only at h
    split at h
    · exact absurd h fail_ne_ok
    · split at h
      · exact absurd h fail_ne_ok
      · split at h
        · obtain ⟨hspan, hrest⟩ := ordered_cons hts.2.2 (by simp)
          obtain ⟨hi, hle, hts'⟩ := params_ordered _ _ _ _ _ hrest h
          exact ⟨hi, by omega, hts'⟩
        · obtain ⟨⟨close, ts₁⟩, hclose, h₁⟩ := exceptBind_eq_ok.1 h
          cases h₁
          obtain ⟨hi, hle, -, hts'⟩ := mark_stays hts.2.2 hclose
          exact ⟨hi, by omega, hts'⟩

private theorem paramList_ordered {ps : List Param} {ts' : List Lexeme} (h : Ordered lo ts)
    (hps : paramList ts = .ok (ps, ts')) : ∃ hi, lo ≤ hi ∧ Ordered hi ts' := by
  rw [paramList] at hps
  obtain ⟨⟨opening, ts₁⟩, hopen, hps₁⟩ := exceptBind_eq_ok.1 hps
  obtain ⟨mid, hle, -, hts₁⟩ := mark_stays h hopen
  dsimp only at hps₁
  split at hps₁
  · cases hps₁
    obtain ⟨hspan, hrest⟩ := ordered_cons hts₁ (by simp)
    exact ⟨_, by omega, hrest⟩
  · obtain ⟨hi, hle', hts'⟩ := params_ordered _ _ _ _ _ hts₁ hps₁
    exact ⟨hi, by omega, hts'⟩

end Parser

/-- The item stands in the range, and if it is a callable its name is a word. -/
structure Item.Within (lo hi : Nat) (i : Item) : Prop where
  /-- Its spans follow each other in the range. -/
  covers : Covers lo hi i.spans
  /-- The name of a callable has only characters of words. -/
  isWord : ∀ {d}, i = .callable d → IsWord d.name

/-- The items stand in ranges that follow each other, from `lo` on. -/
def ItemsOrdered (lo : Nat) : List Item → Prop
  | [] => True
  | i :: rest => ∃ hi, lo ≤ hi ∧ i.Within lo hi ∧ ItemsOrdered hi rest

namespace Parser

variable {source : String} {lo fuel : Nat} {ts : List Lexeme}

/-- An item stands in a range from `lo` on, and the lexemes left are ordered from its end on. -/
private def ItemStays (lo : Nat) (x : Except SyntaxError (Read Item)) : Prop :=
  ∀ {i ts}, x = .ok (i, ts) → ∃ hi, lo ≤ hi ∧ i.Within lo hi ∧ Ordered hi ts

private theorem callable_stays {kind : CallableKind} {start : Span}
    (hstart : lo ≤ start.start ∧ start.start < start.stop) (h : Ordered start.stop ts) :
    ItemStays lo (callable source fuel kind start ts) := by
  intro i ts' hi
  rw [callable] at hi
  obtain ⟨⟨⟨s, nameSpan⟩, ts₁⟩, hname, hi₁⟩ := exceptBind_eq_ok.1 hi
  obtain ⟨⟨ps, ts₂⟩, hps, hi₂⟩ := exceptBind_eq_ok.1 hi₁
  obtain ⟨⟨body, ts₃⟩, hbody, hi₃⟩ := exceptBind_eq_ok.1 hi₂
  cases hi₃
  obtain ⟨mid₁, hle₁, hcover₁, hts₁⟩ := name_stays h hname
  obtain ⟨mid₂, hle₂, hts₂⟩ := paramList_ordered hts₁ hps
  obtain ⟨hi, hle₃, hcover₃, hts₃⟩ := block_spans hts₂ hbody
  have hbody' := hcover₃.mono (by omega : lo ≤ mid₂) (Nat.le_refl hi)
  refine ⟨hi, by omega, ⟨?_, ?_⟩, hts₃⟩
  · rw [Item.spans]
    exact .cons (Covers.merge ⟨hstart.1, hstart.2, by omega⟩ (hbody' _ body.span_mem_spans))
      (.cons (hcover₁.mono (by omega) (by omega) nameSpan (by simp)) hbody')
  · intro d hd
    cases hd
    rw [name_eq_ok] at hname
    rw [hname] at h
    exact h.2.1.isWord rfl

private theorem item_stays (h : Ordered lo ts) : ItemStays lo (item source fuel ts) := by
  intro i ts' hi
  rw [item.eq_def] at hi
  split at hi
  · cases hi
    obtain ⟨hspan, hrest⟩ := ordered_cons h (by simp)
    exact ⟨_, by omega, ⟨.cons hspan .nil, by simp⟩, hrest⟩
  · obtain ⟨hspan, hrest⟩ := ordered_cons h (by simp)
    obtain ⟨⟨⟨s, nameSpan⟩, ts₁⟩, hname, hi₁⟩ := exceptBind_eq_ok.1 hi
    cases hi₁
    obtain ⟨hi, hle, hcover, hts₁⟩ := name_stays hrest hname
    have hname' := hcover.mono (by omega : lo ≤ _) (Nat.le_refl hi) nameSpan (by simp)
    exact ⟨hi, by omega, ⟨.cons (Covers.merge (by omega) hname') .nil, by simp⟩, hts₁⟩
  · obtain ⟨hspan, hrest⟩ := ordered_cons h (by simp)
    obtain ⟨⟨⟨s, nameSpan⟩, ts₁⟩, hname, hi₁⟩ := exceptBind_eq_ok.1 hi
    obtain ⟨⟨body, ts₂⟩, hbody, hi₂⟩ := exceptBind_eq_ok.1 hi₁
    cases hi₂
    obtain ⟨mid, hle, hcover, hts₁⟩ := name_stays hrest hname
    obtain ⟨hi, hle', hcover', hts₂⟩ := expr_spans hts₁ hbody
    have hbody' := hcover'.mono (by omega : lo ≤ mid) (Nat.le_refl hi)
    refine ⟨hi, by omega, ⟨?_, by simp⟩, hts₂⟩
    rw [Item.spans]
    exact .cons (Covers.merge (by omega) (hbody' _ body.span_mem_spans))
      (.cons (hcover.mono (by omega) hle' nameSpan (by simp)) hbody')
  · obtain ⟨hspan, hrest⟩ := ordered_cons h (by simp)
    exact callable_stays ⟨hspan.1, hspan.2.1⟩ hrest hi
  · obtain ⟨hspan, hrest⟩ := ordered_cons h (by simp)
    exact callable_stays ⟨hspan.1, hspan.2.1⟩ hrest hi
  · exact absurd hi fail_ne_ok

/-- The items read so far are ordered up to `mid`, and what follows them from there on. -/
private theorem items_ordered {n : Nat} :
    ∀ {done result : List Item} {ts : List Lexeme} {mid : Nat},
    (∀ rest : List Item, ItemsOrdered mid rest → ItemsOrdered 0 (done.reverse ++ rest)) →
    Ordered mid ts → items source fuel n done ts = .ok result → ItemsOrdered 0 result := by
  induction n with
  | zero =>
    intro done result ts mid _ _ h
    rw [items] at h
    exact absurd h fail_ne_ok
  | succ n ih =>
    intro done result ts mid hdone hts h
    rw [items.eq_def] at h
    dsimp only at h
    split at h
    · cases h
      simpa using hdone [] trivial
    · cases h
      simpa using hdone [] trivial
    · obtain ⟨⟨i, ts₁⟩, hi, h₁⟩ := exceptBind_eq_ok.1 h
      obtain ⟨hi', hle, hwithin, hts₁⟩ := item_stays hts hi
      refine ih ?_ hts₁ h₁
      intro rest hrest
      rw [List.reverse_cons, List.append_assoc]
      exact hdone _ ⟨hi', hle, hwithin, hrest⟩

end Parser

/-- The items of a file follow each other. -/
theorem parseFile_ordered {source : String} {ts : List Lexeme} {items : List Item}
    (hts : Ordered 0 ts) (h : parseFile source ts = .ok items) : ItemsOrdered 0 items :=
  Parser.items_ordered (fun _ hrest ↦ hrest) hts h

namespace ItemsOrdered

theorem isWord {d : CallableDecl} {lo : Nat} {items : List Item} (h : ItemsOrdered lo items)
    (hd : .callable d ∈ items) : IsWord d.name := by
  induction items generalizing lo with
  | nil => contradiction
  | cons i items ih =>
    obtain ⟨hi, -, hwithin, hrest⟩ := h
    rcases List.mem_cons.1 hd with rfl | hd
    · exact hwithin.isWord rfl
    · exact ih hrest hd

/-- What stands behind `lo` starts there or later. -/
theorem define_ge {e : DefineDecl} {lo : Nat} {items : List Item} (h : ItemsOrdered lo items)
    (he : .define e ∈ items) : lo ≤ e.span.start := by
  induction items generalizing lo with
  | nil => contradiction
  | cons i items ih =>
    obtain ⟨hi, hle, hwithin, hrest⟩ := h
    rcases List.mem_cons.1 he with rfl | he
    · exact (hwithin.covers e.span (by simp [Item.spans])).1
    · exact hle.trans (ih hrest he)

/-- A callable has a range to itself: every definition starts before it or behind it. -/
theorem apart {d : CallableDecl} {lo : Nat} {items : List Item} (h : ItemsOrdered lo items)
    (hd : .callable d ∈ items) : ∃ a b, lo ≤ a ∧ Covers a b d.body.spans ∧
      ∀ e, .define e ∈ items → e.span.start < a ∨ b ≤ e.span.start := by
  induction items generalizing lo with
  | nil => contradiction
  | cons i items ih =>
    obtain ⟨hi, hle, hwithin, hrest⟩ := h
    rcases List.mem_cons.1 hd with rfl | hd
    · -- the callable is the first item: all definitions come behind it
      refine ⟨lo, hi, Nat.le_refl lo, fun s hs ↦ hwithin.covers s ?_, fun e he ↦ ?_⟩
      · rw [Item.spans]
        exact List.mem_cons_of_mem _ (List.mem_cons_of_mem _ hs)
      · exact .inr (hrest.define_ge (List.mem_of_ne_of_mem (by simp) he))
    · -- the callable is a later item: a definition that is the first one ends before it
      obtain ⟨a, b, hlo, hcovers, happart⟩ := ih hrest hd
      refine ⟨a, b, hle.trans hlo, hcovers, fun e he ↦ ?_⟩
      rcases List.mem_cons.1 he with rfl | he
      · obtain ⟨-, hlt, hstop⟩ := hwithin.covers e.span (by simp [Item.spans])
        exact .inl (by omega)
      · exact happart e he

end ItemsOrdered

/-- The items a text reads as. -/
def ReadsAs (source : String) (items : List Item) : Prop :=
  ∃ ts, lex source = .ok ts ∧ parseFile source ts = .ok items

theorem ReadsAs.ordered {source : String} {items : List Item} (h : ReadsAs source items) :
    ItemsOrdered 0 items := by
  obtain ⟨ts, hlex, hparse⟩ := h
  exact parseFile_ordered (lex_ordered hlex) hparse

end CharacterScript
