import CharacterScript.Calc
import CharacterScript.Proofs.Relocation.Splices
import Mathlib.Data.List.DropRight

/-!
# A calculation has the value of its tree

There are two readers of arithmetic. The one for calculations goes over the characters and computes
as it goes; the one for expressions goes over tokens and builds a tree. They treat signs apart: a
calculation has a sign as an operator in front of an operand, while for the other reader a sign is a
part of the number. On a text that both read they agree: the calculation has the value of the tree
(`evaluate_of_parsed`).

## What a reader does with a list of lexemes

What the reader of characters does is stated for lists of lexemes. `Operand v ls` says that where a
text goes on with the lexemes `ls`, the reader of operands takes just those and finds the value `v`;
`Product v ls` and `Sum v ls` say that the readers of products and sums get as far as the end of
`ls` with the value `v`. These are closed under what the grammar is made of: operators, parentheses
and numbers.

## Which way the induction goes

The statements are about a fixed text and any number of steps that is large enough, and they are
proved along the phrases of the grammar (`Phrase.reads`), not along the reader. Each constructor
is one closure lemma. A phrase of level nine is a product and one of level zero a sum, because a
tree with a value has no operator of another level, so all three statements go along at once.

The text between two lexemes is blank. That is where comments are excluded: the reader of
characters takes a slash for a division.
-/

namespace CharacterScript

/-! ## Values of trees -/

/-- What an arithmetic operator does to two numbers. -/
def BinOp.operation? : BinOp → Option (Float → Float → Float)
  | add => some (· + ·)
  | sub => some (· - ·)
  | mul => some (· * ·)
  | div => some (· / ·)
  | mod => some remainder
  | _ => none

/-- The value of a tree, if it is made of numbers and arithmetic operators only. -/
def Expr.value? : Expr → Option Float
  | .number value _ => some value
  | .binary op left right _ => do
    let f ← op.operation?
    let a ← left.value?
    let b ← right.value?
    return f a b
  | .name .. | .call .. | .calculation .. | .not .. => none

@[simp] theorem Expr.value?_withSpan (e : Expr) (span : Span) :
    (e.withSpan span).value? = e.value? := by
  cases e <;> rfl

theorem Expr.value?_join {op : BinOp} {left right : Expr} {v : Float}
    (h : (Expr.join op left right).value? = some v) :
    ∃ f a b, op.operation? = some f ∧ left.value? = some a ∧ right.value? = some b ∧ v = f a b := by
  simp only [Expr.join, Expr.value?, Option.bind_eq_bind, Option.bind_eq_some_iff,
    Option.pure_def, Option.some.injEq] at h
  obtain ⟨f, hf, a, ha, b, hb, rfl⟩ := h
  exact ⟨f, a, b, hf, ha, hb, rfl⟩

/-! ## Texts without comments -/

/-- No mark that opens a comment occurs. -/
def Uncommented (text : List Char) : Prop :=
  ¬ ['/', '/'] <:+: text ∧ ¬ ['/', '*'] <:+: text

instance (text : List Char) : Decidable (Uncommented text) :=
  inferInstanceAs (Decidable (_ ∧ _))

theorem Uncommented.of_append {front rest : List Char} (h : Uncommented (front ++ rest)) :
    Uncommented rest :=
  ⟨fun hin ↦ h.1 (hin.trans (List.suffix_append _ _).isInfix),
    fun hin ↦ h.2 (hin.trans (List.suffix_append _ _).isInfix)⟩

/-- Only blanks are dropped from such a text. -/
theorem Gap.blank_of_uncommented {front rest : List Char} (h : Gap rest front)
    (hu : Uncommented (front ++ rest)) : ∃ c, front = [c] ∧ isBlank c = true := by
  cases h with
  | blank h => exact ⟨_, rfl, h⟩
  | line => exact absurd (List.infix_append' [] _ _) hu.1
  | block => exact absurd (List.infix_append' [] _ _) hu.2

namespace Calc

variable {text rest : List Char} {ls ms more : List Lexeme} {v a b : Float}

/-! ## Blanks -/

theorem skipBlanks_blank {c : Char} (h : isBlank c = true) (cs : List Char) :
    skipBlanks (c :: cs) = skipBlanks cs := by
  rw [skipBlanks, List.dropWhile_cons_of_pos h, skipBlanks]

theorem skipBlanks_of_ne {c : Char} (h : isBlank c = false) (cs : List Char) :
    skipBlanks (c :: cs) = c :: cs := by
  rw [skipBlanks, List.dropWhile_cons_of_neg (by simp [h])]

theorem skipBlanks_skipBlanks (cs : List Char) : skipBlanks (skipBlanks cs) = skipBlanks cs :=
  List.dropWhile_idempotent _ _

/-- No token starts with a blank. -/
theorem isBlank_head_of_spells {last : Option Token} {t : Token} {c : Char} {front : List Char}
    (h : Spells t (c :: front)) (hends : t.Ends last (c :: front) rest) : isBlank c = false := by
  by_contra hblank
  have hread := Piece.read_of_spells h hends
  rw [Piece.read, if_pos (Bool.of_not_eq_false hblank)] at hread
  cases hread

/-! ## Texts made of lexemes and blanks

A text goes on with given lexemes if the lexer finds these lexemes in it, in whatever place it
stands. Both readers see it from there: one takes the first lexeme, the other skips blanks and
looks at a character, which is the first one of the same lexeme. -/

/-- Somewhere in a text, the part from here on is made of the lexemes `ls` and blanks. -/
structure Holds (text : List Char) (ls : List Lexeme) : Prop where
  /-- The lexer gets these lexemes, wherever the text stands and whatever came before it. -/
  lexes : ∃ last offset, Lexes last offset text ls
  /-- No comment is left to skip. -/
  uncommented : Uncommented text

/-- Behind blanks the first lexeme is found, and behind it the others. -/
theorem Holds.next {l : Lexeme} (h : Holds text (l :: ls)) (hl : l.token ≠ .eof) :
    ∃ front rest last, skipBlanks text = front ++ rest ∧ Spells l.token front ∧
      l.token.Ends last front rest ∧ Holds rest ls ∧ rest.length < text.length := by
  obtain ⟨⟨last, offset, hlex⟩, hu⟩ := h
  generalize hls : l :: ls = all at hlex
  induction hlex with
  | done =>
    cases hls
    exact absurd rfl hl
  | @gap last offset front rest ts hgap _ ih =>
    obtain ⟨c, rfl, hc⟩ := hgap.blank_of_uncommented hu
    obtain ⟨front, rest', last, hskip, hspells, hends, hrest, hlt⟩ := ih hu.of_append hls
    refine ⟨front, rest', last, ?_, hspells, hends, hrest, ?_⟩
    · rw [List.singleton_append, skipBlanks_blank hc, hskip]
    · rw [List.singleton_append, List.length_cons]
      omega
  | @token last offset t front rest ts hspells hends hrest _ =>
    cases hls
    obtain ⟨c, front, rfl⟩ := List.exists_cons_of_ne_nil hspells.ne_nil
    refine ⟨c :: front, rest, last, ?_, hspells, hends, ⟨⟨_, _, hrest⟩, hu.of_append⟩, ?_⟩
    · exact skipBlanks_of_ne (isBlank_head_of_spells hspells hends) _
    · rw [List.length_append, List.length_cons]
      omega

/-- A mark is found behind blanks. -/
theorem Holds.punct {p : Punct} {span : Span} (h : Holds text (p.at span :: ls)) :
    ∃ rest, skipBlanks text = p.spelling.toList ++ rest ∧ Holds rest ls ∧
      rest.length < text.length := by
  obtain ⟨front, rest, last, hskip, hspells, -, hrest, hlt⟩ := h.next (by simp)
  cases hspells
  exact ⟨rest, hskip, hrest, hlt⟩

/-- Before the end there are blanks only. -/
theorem Holds.eof {stop : Span} (h : Holds text (⟨.eof, stop⟩ :: ls)) : skipBlanks text = [] := by
  obtain ⟨⟨last, offset, hlex⟩, hu⟩ := h
  generalize hls : (⟨.eof, stop⟩ :: ls : List Lexeme) = all at hlex
  induction hlex with
  | done => rfl
  | @gap last offset front rest ts hgap _ ih =>
    obtain ⟨c, rfl, hc⟩ := hgap.blank_of_uncommented hu
    rw [List.singleton_append, skipBlanks_blank hc]
    exact ih hu.of_append hls
  | token hspells =>
    cases hls
    cases hspells

/-! ## What follows a number

A literal is read by taking all characters that could belong to one. So it has to be known that
the next lexeme starts with none of these. -/

/-- A mark or the end comes next. -/
def MarkNext (more : List Lexeme) : Prop :=
  (∃ stop rest, more = ⟨.eof, stop⟩ :: rest) ∨ ∃ p span rest, more = Punct.at p span :: rest

theorem markNext_eof (stop : Span) (rest : List Lexeme) : MarkNext (⟨.eof, stop⟩ :: rest) :=
  .inl ⟨stop, rest, rfl⟩

theorem markNext_punct (p : Punct) (span : Span) (rest : List Lexeme) :
    MarkNext (p.at span :: rest) :=
  .inr ⟨p, span, rest, rfl⟩

/-- The characters that go on with a number: digits, a point, and what makes a zero hexadecimal. -/
def goesOn (c : Char) : Bool :=
  c.isDigit || c == '.' || c == 'x' || c == 'X'

/-- Neither a mark nor a gap goes on with a number. -/
theorem Holds.not_goesOn (h : Holds rest more) (hmore : MarkNext more) : NoneNext goesOn rest := by
  obtain ⟨⟨last, offset, hlex⟩, -⟩ := h
  cases hlex with
  | done => exact noneNext_nil _
  | gap hgap =>
    cases hgap with
    | blank h =>
      simp only [isBlank, Bool.or_eq_true, beq_iff_eq] at h
      rcases h with (((rfl | rfl) | rfl) | rfl) | rfl <;> exact noneNext_cons.2 (by decide)
    | line | block => exact noneNext_cons.2 (by decide)
  | token hspells =>
    obtain ⟨stop, rest, hmore⟩ | ⟨p, span, rest, hmore⟩ := hmore
    · cases hmore
      cases hspells
    · cases hmore
      cases hspells
      cases p <;> exact noneNext_cons.2 (by decide)

/-! ## Operands, products and sums

Steps are counted by characters, and a bound that is enough for a text is enough for any end of
it. -/

/-- Where a text goes on with the lexemes `ls` and then a mark, they are an operand worth `v`. -/
def Operand (v : Float) (ls : List Lexeme) : Prop :=
  ∀ ⦃text more⦄, Holds text (ls ++ more) → MarkNext more →
    ∃ rest, Holds rest more ∧ rest.length < text.length ∧
      ∀ fuel, 4 * text.length ≤ fuel + 4 * rest.length → signed fuel text = .ok (v, rest)

/-- The lexemes `ls` are a product worth `v`, or the front of one. -/
def Product (v : Float) (ls : List Lexeme) : Prop :=
  ∀ ⦃text more⦄, Holds text (ls ++ more) → MarkNext more →
    ∃ rest, Holds rest more ∧ rest.length < text.length ∧
      ∀ fuel, 4 * text.length + 1 ≤ fuel + 4 * rest.length →
        ∃ fuel', fuel + rest.length ≤ fuel' + text.length ∧
          product fuel text = moreProduct fuel' v rest

/-- The lexemes `ls`, with no operator of a product behind them, are a sum worth `v` or the front of
one. -/
def Sum (v : Float) (ls : List Lexeme) : Prop :=
  ∀ ⦃text more⦄, Holds text (ls ++ more) → MarkNext more → StopsBelow 9 more →
    ∃ rest, Holds rest more ∧ rest.length < text.length ∧
      ∀ fuel, 4 * text.length + 2 ≤ fuel + 4 * rest.length →
        ∃ fuel', fuel + rest.length ≤ fuel' + text.length ∧
          sum fuel text = moreSum fuel' v rest

/-! ## Chains of operators

A sum and a product are read alike: after an operand comes an operator and another operand, or
nothing more that belongs to them. They differ in their operators and in what their operands are. -/

/-- What is read behind an operand, when `operator?` are the operators, `operand` reads the next
operand and `more` goes on behind that. -/
def chain (operator? : Char → Option (Float → Float → Float))
    (operand : List Char → Except CalcError (Float × List Char))
    (more : Float → List Char → Except CalcError (Float × List Char)) (value : Float)
    (cs : List Char) : Except CalcError (Float × List Char) :=
  match skipBlanks cs with
  | [] => .ok (value, [])
  | c :: rest =>
    match operator? c with
    | none => .ok (value, c :: rest)
    | some f => do
      let (right, cs) ← operand rest
      more (f value right) cs

theorem moreSum_succ (fuel : Nat) (v : Float) (cs : List Char) :
    moreSum (fuel + 1) v cs = chain sum? (product fuel) (moreSum fuel) v cs := rfl

theorem moreProduct_succ (fuel : Nat) (v : Float) (cs : List Char) :
    moreProduct (fuel + 1) v cs = chain product? (signed fuel) (moreProduct fuel) v cs := rfl

section

variable {operator? : Char → Option (Float → Float → Float)}
variable {operand : List Char → Except CalcError (Float × List Char)}
variable {next : Float → List Char → Except CalcError (Float × List Char)} {cs rest : List Char}

theorem chain_skipBlanks :
    chain operator? operand next v (skipBlanks cs) = chain operator? operand next v cs := by
  rw [chain, chain, skipBlanks_skipBlanks]

/-- Where no operator comes next, the chain stops. -/
theorem chain_stop (h : ∀ c, (skipBlanks cs).head? = some c → operator? c = none) :
    chain operator? operand next v cs = .ok (v, skipBlanks cs) := by
  rw [chain]
  cases hskip : skipBlanks cs with
  | nil => rfl
  | cons c rest =>
    dsimp only
    rw [h c (by rw [hskip]; rfl)]

theorem chain_step {c : Char} {f : Float → Float → Float} (hskip : skipBlanks cs = c :: rest)
    (hc : operator? c = some f) : chain operator? operand next v cs
      = operand rest >>= fun right ↦ next (f v right.1) right.2 := by
  rw [chain, hskip]
  dsimp only
  rw [hc]

end

theorem moreSum_skipBlanks (fuel : Nat) (cs : List Char) :
    moreSum fuel v (skipBlanks cs) = moreSum fuel v cs := by
  cases fuel with
  | zero => rfl
  | succ fuel => rw [moreSum_succ, moreSum_succ, chain_skipBlanks]

/-- Where no operator of a product comes next, the reader of products finds none. -/
theorem Holds.product?_eq_none (h : Holds rest more) (hmore : MarkNext more)
    (hstops : StopsBelow 9 more) (c : Char) (hc : (skipBlanks rest).head? = some c) :
    product? c = none := by
  obtain ⟨stop, more, rfl⟩ | ⟨p, span, more, rfl⟩ := hmore
  · rw [h.eof] at hc
    cases hc
  · obtain ⟨rest', hskip, -, -⟩ := h.punct
    rw [hskip] at hc
    cases p <;> cases hc <;> first
      | rfl
      | exact absurd (hstops _ rfl) (by decide)

/-! ## From operands to sums -/

theorem Operand.product (h : Operand v ls) : Product v ls := by
  intro text more htext hmore
  obtain ⟨rest, hrest, hlt, hread⟩ := h htext hmore
  refine ⟨rest, hrest, hlt, fun fuel hfuel ↦ ?_⟩
  obtain ⟨fuel, rfl⟩ := Nat.exists_eq_succ_of_ne_zero (show fuel ≠ 0 by omega)
  refine ⟨fuel, by omega, ?_⟩
  rw [Calc.product, hread fuel (by omega)]
  rfl

theorem Product.sum (h : Product v ls) : Sum v ls := by
  intro text more htext hmore hstops
  obtain ⟨rest, hrest, hlt, hread⟩ := h htext hmore
  refine ⟨rest, hrest, hlt, fun fuel hfuel ↦ ?_⟩
  obtain ⟨fuel, rfl⟩ := Nat.exists_eq_succ_of_ne_zero (show fuel ≠ 0 by omega)
  obtain ⟨fuel', hfuel', hproduct⟩ := hread fuel (by omega)
  obtain ⟨fuel', rfl⟩ := Nat.exists_eq_succ_of_ne_zero (show fuel' ≠ 0 by omega)
  refine ⟨fuel, by omega, ?_⟩
  rw [Calc.sum, hproduct, moreProduct_succ, chain_stop (hrest.product?_eq_none hmore hstops)]
  exact moreSum_skipBlanks fuel rest

theorem Product.times {op : BinOp} {f : Float → Float → Float} {sign : Span} (hop : op.level = 9)
    (hf : op.operation? = some f) (hleft : Product a ls) (hright : Operand b ms) :
    Product (f a b) (ls ++ op.punct.at sign :: ms) := by
  intro text more htext hmore
  rw [List.append_assoc, List.cons_append] at htext
  obtain ⟨rest₁, hrest₁, hlt₁, hread₁⟩ := hleft htext (markNext_punct _ _ _)
  obtain ⟨rest₂, hskip, hrest₂, hlt₂⟩ := hrest₁.punct
  obtain ⟨rest₃, hrest₃, hlt₃, hread₃⟩ := hright hrest₂ hmore
  refine ⟨rest₃, hrest₃, by omega, fun fuel hfuel ↦ ?_⟩
  obtain ⟨fuel₁, hfuel₁, hproduct⟩ := hread₁ fuel (by omega)
  obtain ⟨fuel₁, rfl⟩ := Nat.exists_eq_succ_of_ne_zero (show fuel₁ ≠ 0 by omega)
  refine ⟨fuel₁, by omega, ?_⟩
  have hmark : ∃ c, op.punct.spelling.toList = [c] ∧ product? c = some f := by
    cases op <;> cases hf <;> first
      | exact ⟨_, rfl, rfl⟩
      | cases hop
  obtain ⟨c, hc, hproduct?⟩ := hmark
  rw [hc, List.singleton_append] at hskip
  rw [hproduct, moreProduct_succ, chain_step hskip hproduct?, hread₃ fuel₁ (by omega)]
  rfl

theorem Sum.plus {op : BinOp} {f : Float → Float → Float} {sign : Span} (hop : op.level = 8)
    (hf : op.operation? = some f) (hleft : Sum a ls) (hright : Product b ms) :
    Sum (f a b) (ls ++ op.punct.at sign :: ms) := by
  intro text more htext hmore hstops
  rw [List.append_assoc, List.cons_append] at htext
  have hstops₁ : StopsBelow 9 (op.punct.at sign :: (ms ++ more)) := by
    intro op' hop'
    rw [nextOperator?_at] at hop'
    cases hop'
    omega
  obtain ⟨rest₁, hrest₁, hlt₁, hread₁⟩ := hleft htext (markNext_punct _ _ _) hstops₁
  obtain ⟨rest₂, hskip, hrest₂, hlt₂⟩ := hrest₁.punct
  obtain ⟨rest₃, hrest₃, hlt₃, hread₃⟩ := hright hrest₂ hmore
  refine ⟨rest₃, hrest₃, by omega, fun fuel hfuel ↦ ?_⟩
  obtain ⟨fuel₁, hfuel₁, hsum⟩ := hread₁ fuel (by omega)
  obtain ⟨fuel₁, rfl⟩ := Nat.exists_eq_succ_of_ne_zero (show fuel₁ ≠ 0 by omega)
  obtain ⟨fuel₂, hfuel₂, hproduct⟩ := hread₃ fuel₁ (by omega)
  obtain ⟨fuel₂, rfl⟩ := Nat.exists_eq_succ_of_ne_zero (show fuel₂ ≠ 0 by omega)
  refine ⟨fuel₁, by omega, ?_⟩
  have hmark : ∃ c, op.punct.spelling.toList = [c] ∧ sum? c = some f := by
    cases op <;> cases hf <;> first
      | exact ⟨_, rfl, rfl⟩
      | cases hop
  obtain ⟨c, hc, hsum?⟩ := hmark
  rw [hc, List.singleton_append] at hskip
  rw [hsum, moreSum_succ, chain_step hskip hsum?, hproduct, moreProduct_succ,
    chain_stop (hrest₃.product?_eq_none hmore hstops)]
  exact moreSum_skipBlanks fuel₁ rest₃

theorem Sum.paren {opening closing : Span} (h : Sum v ls) :
    Operand v (Punct.openParen.at opening :: (ls ++ [Punct.closeParen.at closing])) := by
  intro text more htext hmore
  rw [List.cons_append, List.append_assoc, List.singleton_append] at htext
  obtain ⟨rest₁, hopen, hrest₁, hlt₁⟩ := htext.punct
  obtain ⟨rest₂, hrest₂, hlt₂, hread⟩ := h hrest₁ (markNext_punct _ _ _) nofun
  obtain ⟨rest₃, hclose, hrest₃, hlt₃⟩ := hrest₂.punct
  refine ⟨rest₃, hrest₃, by omega, fun fuel hfuel ↦ ?_⟩
  obtain ⟨fuel, rfl⟩ := Nat.exists_eq_succ_of_ne_zero (show fuel ≠ 0 by omega)
  obtain ⟨fuel', hfuel', hsum⟩ := hread fuel (by omega)
  obtain ⟨fuel', rfl⟩ := Nat.exists_eq_succ_of_ne_zero (show fuel' ≠ 0 by omega)
  have hstop : moreSum (fuel' + 1) v rest₂ = .ok (v, ')' :: rest₃) := by
    rw [moreSum_succ, chain_stop, hclose]
    · rfl
    · intro c hc
      rw [hclose] at hc
      cases hc
      rfl
  have hopen : skipBlanks text = '(' :: rest₁ := hopen
  rw [signed, hopen]
  simp only [Char.reduceEq, if_false, if_true]
  rw [hsum, hstop]
  rfl

/-! ## Numbers -/

theorem decimalLiteral_decimalText {whole fraction : List Char} (h : IsDecimal whole fraction) :
    decimalLiteral (decimalText whole fraction) = .ok (Piece.decimalValue whole fraction) := by
  obtain ⟨hne, hwhole, hfraction⟩ := h
  have hrun : (decimalText whole fraction).takeWhile Char.isDigit = whole := by
    cases fraction with
    | nil => simpa [decimalText] using hwhole
    | cons d fraction => exact takeWhile_append_eq_iff.2 ⟨hwhole, noneNext_cons.2 (by decide)⟩
  have htail : ((decimalText whole fraction).drop whole.length).tail = fraction := by
    cases fraction with
    | nil => simp [decimalText]
    | cons d fraction => simp [decimalText]
  have hcheck : (fraction.all Char.isDigit && !(whole.isEmpty && fraction.isEmpty)) = true := by
    simp [hne, List.all_eq_true.2 hfraction]
  rw [decimalLiteral, hrun, htail, if_pos hcheck]
  rfl

/-- A decimal number is read up to its end. -/
theorem number_decimalText {whole fraction : List Char} (h : IsDecimal whole fraction)
    (hrest : NoneNext goesOn rest) :
    number (decimalText whole fraction ++ rest) =
      .ok (Piece.decimalValue whole fraction, rest) := by
  have hstop : NoneNext (fun c ↦ c.isDigit || c == '.') rest := by
    cases rest with
    | nil => exact noneNext_nil _
    | cons c rest =>
      have hc := noneNext_cons.1 hrest
      simp only [goesOn, Bool.or_eq_false_iff] at hc
      exact noneNext_cons.2 (by rw [hc.1.1.1, hc.1.1.2]; rfl)
  have hrun := takeWhile_append_eq_iff.2 ⟨h.of_mem, hstop⟩
  -- a zero in front is not the start of a hexadecimal number
  have hzero : ∀ x cs, x = 'x' ∨ x = 'X' → decimalText whole fraction ++ rest ≠ '0' :: x :: cs := by
    intro x cs hx hcs
    rw [hcs] at hrun
    have hone : decimalText whole fraction = ['0'] := by
      rcases hx with rfl | rfl <;> exact hrun.symm
    rw [hone, List.singleton_append, List.cons.injEq] at hcs
    rw [hcs.2, noneNext_cons] at hrest
    rcases hx with rfl | rfl <;> cases hrest
  rw [number.eq_def]
  split
  next cs hcs => exact absurd hcs (hzero _ _ (.inl rfl))
  next cs hcs => exact absurd hcs (hzero _ _ (.inr rfl))
  next =>
    rw [hrun]
    show (decimalLiteral _ >>= _) = _
    rw [decimalLiteral_decimalText h]
    exact congrArg (fun cs ↦ Except.ok (_, cs)) (List.drop_left)

theorem signed_decimalText {fuel : Nat} (hfuel : 0 < fuel) {whole fraction : List Char}
    (h : IsDecimal whole fraction) (hrest : NoneNext goesOn rest)
    (htext : skipBlanks text = decimalText whole fraction ++ rest) :
    signed fuel text = .ok (Piece.decimalValue whole fraction, rest) := by
  obtain ⟨fuel, rfl⟩ := Nat.exists_eq_succ_of_ne_zero hfuel.ne'
  obtain ⟨d, digits, hcons, hd⟩ := Piece.IsDecimal.exists_cons h
  have hnumber := number_decimalText h hrest
  have hnot : ∀ c : Char, c.isDigit = false → d ≠ c := by
    rintro c hc rfl
    rw [hd] at hc
    cases hc
  rw [hcons, List.cons_append] at htext hnumber
  rw [signed, htext]
  dsimp only
  rw [if_neg (hnot '-' (by decide)), if_neg (hnot '+' (by decide)), if_neg (hnot '(' (by decide)),
    if_pos (by rw [hd, Bool.true_or]), hnumber]

theorem operand_number (value : Float) (span : Span) : Operand value [⟨.number value, span⟩] := by
  intro text more htext hmore
  obtain ⟨front, rest, last, hskip, hspells, -, hrest, hlt⟩ := htext.next (by simp)
  refine ⟨rest, hrest, hlt, fun fuel hfuel ↦ ?_⟩
  have hstop := hrest.not_goesOn hmore
  cases hspells with
  | number h => exact signed_decimalText (by omega) h hstop hskip
  | @negative whole fraction h =>
    obtain ⟨fuel, rfl⟩ := Nat.exists_eq_succ_of_ne_zero (show fuel ≠ 0 by omega)
    obtain ⟨d, digits, hcons, hd⟩ := Piece.IsDecimal.exists_cons h
    have hblank : isBlank d = false := by
      by_contra hblank
      simp only [isBlank, Bool.not_eq_false, Bool.or_eq_true, beq_iff_eq] at hblank
      rcases hblank with (((rfl | rfl) | rfl) | rfl) | rfl <;> cases hd
    have hdigits : skipBlanks (decimalText whole fraction ++ rest) =
        decimalText whole fraction ++ rest := by
      rw [hcons]
      exact skipBlanks_of_ne hblank _
    rw [signed, hskip]
    dsimp only [List.cons_append]
    rw [if_pos rfl, signed_decimalText (by omega) h hstop hdigits]
    rfl

theorem operand_hex (value : UInt32) (span : Span) :
    Operand (Float.ofNat value.toNat) [⟨.hex value, span⟩] := by
  intro text more htext hmore
  obtain ⟨front, rest, last, hskip, hspells, hends, hrest, hlt⟩ := htext.next (by simp)
  refine ⟨rest, hrest, hlt, fun fuel hfuel ↦ ?_⟩
  obtain ⟨fuel, rfl⟩ := Nat.exists_eq_succ_of_ne_zero (show fuel ≠ 0 by omega)
  cases hspells with
  | @hex _ x digits hx hne hlength hdigits hvalue =>
    have hrun : (digits ++ rest).takeWhile isHexDigit = digits :=
      takeWhile_append_eq_iff.2 ⟨hdigits, hends⟩
    have hliteral : hexLiteral digits = .ok (Float.ofNat value.toNat) := by
      have hsmall : ¬ (digits.isEmpty ∨ Nat.pow 2 64 ≤ hexNumber digits) := by
        have hlt : hexNumber digits < Nat.pow 2 64 :=
          hvalue ▸ value.toNat_lt.trans (by decide)
        rw [List.isEmpty_iff, not_or]
        exact ⟨hne, Nat.not_le.2 hlt⟩
      rw [hexLiteral, if_neg hsmall, hvalue]
    have hnumber : number ('0' :: x :: (digits ++ rest)) = .ok (Float.ofNat value.toNat, rest) := by
      rcases hx with rfl | rfl <;>
        · rw [number, hrun]
          show (hexLiteral _ >>= _) = _
          rw [hliteral]
          exact congrArg (fun cs ↦ Except.ok (_, cs)) (List.drop_left)
    rw [signed, hskip]
    dsimp only [List.cons_append]
    rw [if_neg (by decide), if_neg (by decide), if_neg (by decide), if_pos (by decide), hnumber]

end Calc

/-! ## Phrases -/

open Calc

/-- A phrase whose tree has a value is read as what it is, an operand, a product or a sum. -/
theorem Phrase.reads {source : String} : ∀ (p : Phrase) {v : Float},
    (p.tree source).value? = some v →
      (p.Leveled 10 → Calc.Operand v p.lexemes) ∧ (p.Leveled 9 → Product v p.lexemes) ∧
        (p.Leveled 0 → Calc.Sum v p.lexemes)
  | .number value span, v, hv => by
    cases hv
    have h := operand_number value span
    exact ⟨fun _ ↦ h, fun _ ↦ h.product, fun _ ↦ h.product.sum⟩
  | .hex value span, v, hv => by
    cases hv
    have h := operand_hex value span
    exact ⟨fun _ ↦ h, fun _ ↦ h.product, fun _ ↦ h.product.sum⟩
  | .paren opening inner closing, v, hv => by
    rw [Phrase.tree, Expr.value?_withSpan] at hv
    have h : inner.Leveled 0 → Calc.Operand v (Phrase.paren opening inner closing).lexemes :=
      fun hinner ↦ ((inner.reads hv).2.2 hinner).paren
    exact ⟨h, fun hl ↦ (h hl).product, fun hl ↦ (h hl).product.sum⟩
  | .binary left op sign right, v, hv => by
    obtain ⟨f, a, b, hf, ha, hb, rfl⟩ := Expr.value?_join hv
    obtain ⟨-, hproduct, hsum⟩ := left.reads ha
    obtain ⟨hoperand, hfactor, -⟩ := right.reads hb
    -- the operators with a value are those of sums and those of products
    have hlevel : op.level = 8 ∨ op.level = 9 := by
      cases op <;> cases hf <;> decide
    obtain hlevel | hlevel := hlevel
    · refine ⟨fun hl ↦ ?_, fun hl ↦ ?_, fun ⟨_, hleft, hright⟩ ↦ ?_⟩
      · exact absurd hl.1 (by omega)
      · exact absurd hl.1 (by omega)
      · rw [hlevel] at hleft hright
        exact (hsum (hleft.mono (Nat.zero_le _))).plus hlevel hf (hfactor hright)
    · have h : left.Leveled op.level → right.Leveled (op.level + 1) →
          Product (f a b) (Phrase.binary left op sign right).lexemes := by
        rw [hlevel]
        exact fun hleft hright ↦ (hproduct hleft).times hlevel hf (hoperand hright)
      refine ⟨fun hl ↦ ?_, fun hl ↦ h hl.2.1 hl.2.2, fun hl ↦ (h hl.2.1 hl.2.2).sum⟩
      exact absurd hl.1 (by omega)
  | .name .., _, hv | .target .., _, hv | .calculation .., _, hv | .call .., _, hv
  | .not .., _, hv => by cases hv

/-- **Calculations.** Where a text without comments reads as an expression of numbers and arithmetic
operators, the calculation with this text has the value of the expression if that is finite, and is
refused otherwise. -/
theorem evaluate_of_parsed {text : String} {ts : List Lexeme} {e : Expr} {v : Float}
    (hcomments : Uncommented text.toList) (hlex : lex text = .ok ts)
    (hparse : parseExpression text ts = .ok e) (hvalue : e.value? = some v) :
    evaluate text = if v.isFinite then .ok v else .error .notFinite := by
  obtain ⟨p, ⟨stop, hlex, hwhole⟩, rfl⟩ := exists_fills hlex hparse
  have htext : Holds text.toList (p.lexemes ++ [⟨.eof, stop⟩]) :=
    ⟨⟨none, 0, lex_eq_ok_iff.1 hlex⟩, hcomments⟩
  obtain ⟨rest, hrest, hlt, hread⟩ :=
    (p.reads hvalue).2.2 hwhole.leveled htext (markNext_eof _ _) nofun
  obtain ⟨fuel, hfuel, hsum⟩ := hread (4 * text.toList.length + 8) (by omega)
  obtain ⟨fuel, rfl⟩ := Nat.exists_eq_succ_of_ne_zero (show fuel ≠ 0 by omega)
  have hend : moreSum (fuel + 1) v rest = .ok (v, []) := by
    rw [moreSum_succ, chain_stop, hrest.eof]
    intro c hc
    rw [hrest.eof] at hc
    cases hc
  rw [evaluate, hsum, hend]
  rfl

/-- Signs at the start, behind operators and behind a parenthesis, and numbers of both kinds. -/
def Sample.arithmetic : String :=
  "(-2.5 - -3 % 0x1F)-3 * -1"

theorem evaluate_of_parsed_sample :
    ∃ ts e, Uncommented Sample.arithmetic.toList ∧ lex Sample.arithmetic = .ok ts ∧
      parseExpression Sample.arithmetic ts = .ok e ∧ e.value? = some 3.5 ∧
      evaluate Sample.arithmetic = .ok 3.5 := by
  have hread : ((lex Sample.arithmetic).toOption.bind fun ts ↦
      (parseExpression Sample.arithmetic ts).toOption.bind Expr.value?) = some 3.5 := by
    decide +kernel
  obtain ⟨ts, hts, hread⟩ := Option.bind_eq_some_iff.1 hread
  obtain ⟨e, he, hvalue⟩ := Option.bind_eq_some_iff.1 hread
  have hlex : lex Sample.arithmetic = .ok ts := Running.toOption_eq_some.1 hts
  have hparse : parseExpression Sample.arithmetic ts = .ok e := Running.toOption_eq_some.1 he
  have hcomments : Uncommented Sample.arithmetic.toList := by decide +kernel
  have hvalued := evaluate_of_parsed hcomments hlex hparse hvalue
  rw [if_pos (by decide +kernel)] at hvalued
  exact ⟨ts, e, hcomments, hlex, hparse, hvalue, hvalued⟩

end CharacterScript
