import CharacterScript.Proofs.Compound.Phrases
import CharacterScript.Proofs.Lexing.InFront
import CharacterScript.Proofs.Relocation.Splices

/-!
# A compound assignment written out

In the text of a file, `x = x op (e)` is put in the place of `x op= e`, with the expression as it
was written (`Compound.result`). What stands in front of the name reads as before, because a name
stands there still. The expression reads as before behind the parenthesis, where a sign is a sign as
it was behind the `=`, and in front of the other one, which goes on with nothing. What comes behind
it reads as before because both the expression and the parenthesis end an operand
(`Compound.Cut.lex_result`).

## What is cut

The text is cut at four places: in front of the name, behind the `=`, behind the expression, and
nowhere else. Each piece is read by itself, with what the lexer remembers from the piece in front
of it, which is the last token. So the proof is a list of what stands at the seams. The name at
the first one is the same in both texts; at the second one a parenthesis takes the place of the
`=`, and neither ends an operand; at the third one a parenthesis comes behind the expression.
-/

namespace CharacterScript

section

variable {last : Option Token} {offset : Nat} {text : List Char} {ts back : List Lexeme}

/-! ## An expression in parentheses

What is read in front of a parenthesis stays read when one is put there. The exception would be an
expression that ends in a line comment, and it cannot: its last token ends it. -/

theorem rebase_rebase {a a' b b' : Nat} (h : a ≤ b') (x : Nat) :
    rebase a a' (rebase b b' x) = rebase b (rebase a a' b') x := by
  simp only [rebase]
  omega

theorem map_rebase_rebase {a a' b b' : Nat} (h : a ≤ b') (ls : List Lexeme) :
    (ls.map (Lexeme.rebase b b')).map (Lexeme.rebase a a')
      = ls.map (Lexeme.rebase b (rebase a a' b')) := by
  rw [List.map_map]
  refine List.map_congr_left fun l _ ↦ ?_
  simp only [Function.comp_apply, Lexeme.rebase, Span.rebase, rebase_rebase h]

/-- Behind a token that ends an operand a closing parenthesis can be put in, and what comes next
reads as before. -/
theorem Lexes.closed {m : Lexeme} {ms : List Lexeme} (h : Lexes last offset text (ms ++ m :: back))
    (hends : m.token.endsOperand = true) : ∃ inner rest, text = inner ++ rest ∧
      m.span.stop = offset + byteLength inner ∧ Lexes last offset (inner ++ ')' :: rest)
        (ms ++ m :: Punct.closeParen.at ⟨m.span.stop, m.span.stop + 1⟩ ::
          back.map (Lexeme.rebase m.span.stop (m.span.stop + 1))) := by
  have hm : ∀ t, m.token = t → t.endsOperand = true := fun t ht ↦ ht ▸ hends
  obtain ⟨front, spelled, rest, last', rfl, hfront, hspells, hnext, hspan, hrest⟩ :=
    h.exists_token (fun heq ↦ absurd (hm _ heq) (by decide)) rfl
  obtain ⟨token, span⟩ := m
  dsimp only at hm hends hspells hnext hspan hrest ⊢
  subst hspan
  have hclosed : token.Ends last' spelled ([] ++ ')' :: rest) := by
    have hnext' : token.Ends last' spelled ([] ++ rest) := hnext
    refine hnext'.neutral hspells (neutral_closeParen rest) ?_ ?_
    · rintro - ⟨d, path, heq⟩
      exact absurd (hm _ heq) nofun
    · exact fun heq ↦ absurd (hm _ heq) (by decide)
  refine ⟨front ++ spelled, rest, (List.append_assoc _ _ _).symm, ?_, ?_⟩
  · rw [byteLength_append, Nat.add_assoc]
  rw [List.append_assoc]
  refine (hfront.before_token hspells hnext hclosed).lexes (.token hspells hclosed ?_)
  generalize offset + byteLength front + byteLength spelled = b at hrest ⊢
  refine .token (.punct .closeParen) (ends_closeParen rest) (hrest.rebase b (b + 1) le_rfl ?_ hends)
  rw [CharacterScript.rebase, Nat.sub_self, Nat.zero_add]
  rfl

/-- An operand is cut out of a text and put in parentheses at another place, with what is behind it
moved along. -/
theorem Lexes.parenthesized {l m : Lexeme} {ls ms es : List Lexeme}
    (h : Lexes last offset text (es ++ back)) (hfirst : es = l :: ls) (hlast : es = ms ++ [m])
    (hl : l.token ≠ .eof) (hends : m.token.endsOperand = true)
    (hbehind : last.any Token.endsOperand = false) :
    ∃ gaps inner rest, text = gaps ++ (inner ++ rest) ∧ l.span.start = offset + byteLength gaps ∧
      m.span.stop = offset + byteLength gaps + byteLength inner ∧
      ∀ a, Lexes (some (.punct .openParen)) a (inner ++ ')' :: rest)
        (es.map (Lexeme.rebase l.span.start a) ++
          Punct.closeParen.at ⟨a + byteLength inner, a + byteLength inner + 1⟩ ::
          back.map (Lexeme.rebase m.span.stop (a + byteLength inner + 1))) := by
  have hes : es ++ back = [] ++ l :: (ls ++ back) := by rw [hfirst]; rfl
  obtain ⟨gaps, first, behind, last', rfl, hgaps, hspells, hnext, hspan, hmore⟩ :=
    h.exists_token hl hes
  obtain rfl : last' = last := hgaps.last_eq
  have hhere : Lexes last' (offset + byteLength gaps) (first ++ behind) (es ++ back) := by
    have htoken := Lexes.token hspells hnext hmore
    rw [← hspan] at htoken
    exact hes ▸ htoken
  rw [hlast, List.append_assoc, List.singleton_append] at hhere
  obtain ⟨inner, rest, hsplit, hstop, hclosed⟩ := hhere.closed hends
  have hstart : l.span.start = offset + byteLength gaps := by rw [hspan]
  refine ⟨gaps, inner, rest, by rw [hsplit], hstart, hstop, fun a ↦ ?_⟩
  rw [← hstart] at hclosed hstop
  have hplace : ∀ n, CharacterScript.rebase l.span.start a (l.span.start + n) = a + n := by
    intro n
    rw [CharacterScript.rebase]
    omega
  -- behind a parenthesis, too, a sign starts a number
  have hopen : last'.any Token.endsOperand
      = (some (.punct .openParen) : Option Token).any Token.endsOperand := hbehind
  have hmoved := hclosed.rebase l.span.start a le_rfl (hplace 0).symm hopen
  have hend : CharacterScript.rebase l.span.start a m.span.stop = a + byteLength inner := by
    rw [hstop, hplace]
  have hresume : CharacterScript.rebase l.span.start a (m.span.stop + 1) =
      a + byteLength inner + 1 := by
    rw [hstop, Nat.add_assoc, hplace, Nat.add_assoc]
  have hclosing : (Punct.closeParen.at ⟨m.span.stop, m.span.stop + 1⟩).rebase l.span.start a
      = Punct.closeParen.at ⟨a + byteLength inner, a + byteLength inner + 1⟩ := by
    rw [Lexeme.rebase, Punct.at, Span.rebase, hend, hresume]
    rfl
  rw [List.map_append, List.map_cons, List.map_cons, hclosing, map_rebase_rebase (by omega),
    hresume] at hmoved
  rw [hlast, List.map_append, List.append_assoc]
  exact hmoved

/-! ## What is written in front of the expression -/

/-- `x = x op (`, in front of the expression. -/
def expansionHead (x : String) (op : BinOp) : String :=
  x ++ " = " ++ x ++ " " ++ op.punct.spelling ++ " ("

theorem exists_expansionHead (x : String) (op : BinOp) :
    ∃ more, (expansionHead x op).toList = x.toList ++ ' ' :: more :=
  ⟨_, by simp [expansionHead]; rfl⟩

theorem Lexes.behind_expansionHead {x : String} {op : BinOp} (hx : IsIdentifier x) {a : Nat}
    (ha : a = offset + byteLength (expansionHead x op).toList)
    (h : Lexes (some (.punct .openParen)) a text ts) :
    ∃ nameSpan sign left place opening, Lexes last offset ((expansionHead x op).toList ++ text)
      (⟨.name x, nameSpan⟩ :: Punct.eq.at sign :: ⟨.name x, left⟩ :: op.punct.at place ::
        Punct.openParen.at opening :: ts) := by
  have hhead : (expansionHead x op).toList = x.toList ++ ([' '] ++ (['='] ++ ([' '] ++ (x.toList ++
      ([' '] ++ (op.punct.spelling.toList ++ ([' '] ++ ['(']))))))) := by
    simp [expansionHead]
  have hspace : ∀ {rest}, Gap rest [' '] := .blank rfl
  have hname : ∀ {rest} {last : Option Token}, Token.Ends last x.toList ([' '] ++ rest) (.name x) :=
    rfl
  rw [hhead] at ha ⊢
  simp only [byteLength_append, ← Nat.add_assoc] at ha
  subst ha
  simp only [List.append_assoc]
  exact ⟨_, _, _, _, _, .token (.name hx) hname
    (.gap hspace (.token (.punct .eq) (Punct.eq.ends_space _)
    (.gap hspace (.token (.name hx) hname (.gap hspace (.token (.punct op.punct)
      (op.punct.ends_space _) (.gap hspace (.token (.punct .openParen) (ends_openParen _) h))))))))⟩

end

/-- The source with `x op= e` written out as `x = x op (e)`: the span is that of the assignment, and
`value` that of the expression. -/
def writtenOutAt (source x : String) (op : BinOp) (span value : Span) : String :=
  replacedAt source span (expansionHead x op ++ value.slice source ++ ")")

/-! ## The file -/

/-- A file with a compound assignment in the body of a callable. -/
structure Compound (source : String) where
  /-- The items in front of the callable. -/
  before : List ItemPhrase
  /-- Whether the callable is a script or a function. -/
  kind : CallableKind
  /-- The keyword of the callable. -/
  word : Span
  /-- The name of the callable. -/
  title : String
  /-- Where that name stands. -/
  titleSpan : Span
  /-- The parameters of the callable. -/
  params : ParamsPhrase
  /-- The body with the assignment. -/
  body : BlockPhrase
  /-- The items behind the callable. -/
  after : List ItemPhrase
  /-- What of the body stands in front of the assignment. -/
  left : List Part
  /-- What of the body stands behind the assignment. -/
  right : List Part
  /-- The variable that is assigned to. -/
  name : String
  /-- Where the variable stands. -/
  nameSpan : Span
  /-- The operator in front of the `=`. -/
  op : BinOp
  /-- Where the operator stands. -/
  place : Span
  /-- Where the `=` stands. -/
  sign : Span
  /-- The expression behind it. -/
  value : Phrase
  /-- The source is these items. -/
  written : WrittenAs source (before ++ .callable kind word title titleSpan params body :: after)
  /-- The body has the assignment between the two parts, and it stays a body when another statement
  takes its place. -/
  swap : ∀ E s', ∃ body', BlockPhrase.Swap E (.assign name nameSpan (some (op, place)) sign value)
    s' left right body body'

namespace Compound

variable {source : String} (C : Compound source)

def item : ItemPhrase :=
  .callable C.kind C.word C.title C.titleSpan C.params C.body

def items : List ItemPhrase :=
  C.before ++ C.item :: C.after

def stmt : StmtPhrase :=
  .assign C.name C.nameSpan (some (C.op, C.place)) C.sign C.value

/-- What of the callable stands in front of its body. -/
def head : List Part :=
  .lexeme (C.kind.keyword.at C.word) :: .lexeme ⟨.name C.title, C.titleSpan⟩ ::
    C.params.lexemes.map .lexeme

/-- What stands in front of the assignment. -/
def front : List Part :=
  C.before.flatMap ItemPhrase.parts ++ (C.head ++ C.left)

/-- What stands behind the assignment. -/
def back : List Part :=
  C.right ++ C.after.flatMap ItemPhrase.parts

def valueSpan : Span :=
  (C.value.tree source).span

def span : Span :=
  C.nameSpan.merge C.valueSpan

/-- The assignment written out. -/
def text : String :=
  expansionHead C.name C.op ++ C.valueSpan.slice source ++ ")"

def result : String :=
  writtenOutAt source C.name C.op C.span C.valueSpan

/-- Where the expression starts in the new text. -/
def inside : Nat :=
  C.span.start + (expansionHead C.name C.op).utf8ByteSize

/-- Where what is behind the assignment starts in the new text. -/
def resume : Nat :=
  C.span.start + C.text.utf8ByteSize

theorem parts_item : C.item.parts = C.head ++ (C.left ++ (C.stmt.parts ++ C.right)) := by
  obtain ⟨body', hswap⟩ := C.swap (.plain id) C.stmt
  rw [item, ItemPhrase.parts, hswap.parts_eq]
  rfl

theorem flatMap_parts_items :
    C.items.flatMap ItemPhrase.parts = C.front ++ (C.stmt.parts ++ C.back) := by
  rw [items, List.flatMap_append, List.flatMap_cons, C.parts_item, front, back]
  simp only [List.append_assoc]

theorem written_items : WrittenAs source C.items :=
  C.written

theorem exists_lex : ∃ stop, lex source = .ok (C.front.flatMap Part.lexemes ++
    (C.stmt.lexemes ++ (C.back.flatMap Part.lexemes ++ [⟨.eof, stop⟩]))) := by
  obtain ⟨stop, hlex, -⟩ := C.written_items
  refine ⟨stop, ?_⟩
  rw [hlex, ← flatMap_items_parts, C.flatMap_parts_items, List.flatMap_append, List.flatMap_append,
    C.stmt.flatMap_parts]
  simp only [List.append_assoc]

theorem value_sublist (ls : List Lexeme) : C.value.lexemes.Sublist
    (C.front.flatMap Part.lexemes ++ (C.stmt.lexemes ++ ls)) := by
  have hstmt : C.value.lexemes.Sublist C.stmt.lexemes :=
    (((List.Sublist.refl _).cons _).cons _).cons _
  exact (hstmt.trans (List.sublist_append_left _ _)).trans (List.sublist_append_right _ _)

/-! ### Cut in pieces -/

/-- The source cut at the name, behind the `=`, and behind the expression. What is in front of the
name and the expression itself can be read elsewhere. -/
structure Cut (before gap inner after : List Char) : Prop where
  /-- The parts make up the text. -/
  source_eq : source.toList = before ++ (C.name.toList ++ (gap ++ (inner ++ after)))
  /-- The name starts behind the first part. -/
  start_eq : C.nameSpan.start = byteLength before
  /-- The assignment reaches from the name to the end of the expression. -/
  span_eq : C.span
    = ⟨byteLength before, byteLength before + byteLength (C.name.toList ++ (gap ++ inner))⟩
  /-- The expression is the part it is read from. -/
  valueSpan_eq : C.valueSpan = ⟨byteLength (before ++ (C.name.toList ++ gap)),
    byteLength (before ++ (C.name.toList ++ gap)) + byteLength inner⟩
  /-- The name can be read anywhere. -/
  isIdentifier : IsIdentifier C.name
  /-- The lexer reads the first part and the name, and is then at whatever ends the name. -/
  pieces : ∃ last, ∀ rest, NoneNext isWordChar rest →
    Pieces (C.name.toList ++ rest) none 0 before (C.front.flatMap Part.lexemes) last
  /-- The lexer reads the expression wherever it stands, and behind a closing parenthesis the rest
  of the source. -/
  lexes : ∃ stop, ∀ a, Lexes (some (.punct .openParen)) a (inner ++ ')' :: after)
    (C.value.lexemes.map (Lexeme.rebase C.valueSpan.start a) ++
      Punct.closeParen.at ⟨a + byteLength inner, a + byteLength inner + 1⟩ ::
      (C.back.flatMap Part.lexemes ++ [(⟨.eof, stop⟩ : Lexeme)]).map
        (Lexeme.rebase C.span.stop (a + byteLength inner + 1)))

theorem exists_cut : ∃ before gap inner after, C.Cut before gap inner after := by
  obtain ⟨stop, hlex⟩ := C.exists_lex
  obtain ⟨l, ls, ms, m, hfirst, hlast, hends, hvalue⟩ :=
    C.value.exists_ends hlex (C.value_sublist _)
  have hl : l.token ≠ .eof := C.value.noEof l (hfirst ▸ List.mem_cons_self)
  obtain ⟨before, spelled, rest, last, hsource, hfront, hspells, hnext, hspan, hrest⟩ :=
    (lex_eq_ok_iff.1 hlex).exists_token (l := ⟨.name C.name, C.nameSpan⟩) nofun rfl
  cases hspells with
  | name hname =>
  have hmarks : C.op.punct.at C.place :: Punct.eq.at C.sign :: (C.value.lexemes ++
      (C.back.flatMap Part.lexemes ++ [⟨.eof, stop⟩]))
      = [C.op.punct.at C.place] ++ Punct.eq.at C.sign :: (C.value.lexemes ++
      (C.back.flatMap Part.lexemes ++ [⟨.eof, stop⟩])) := rfl
  obtain ⟨gap, mark, rest, last', rfl, -, -, -, -, hbehind⟩ :=
    hrest.exists_token (l := Punct.eq.at C.sign) nofun hmarks
  obtain ⟨gaps, inner, after, rfl, hstart, hstop, hclosed⟩ :=
    hbehind.parenthesized hfirst hlast hl hends rfl
  have hvalueSpan : C.valueSpan = ⟨l.span.start, m.span.stop⟩ := hvalue
  rw [Nat.zero_add] at hspan hstart hstop
  dsimp only at hspan
  have hspan' : C.span = ⟨byteLength before, m.span.stop⟩ := by
    rw [span, hvalueSpan, hspan, Span.merge]
    dsimp only
    rw [Nat.min_eq_left (by omega), Nat.max_eq_right (by omega)]
  refine ⟨before, gap ++ (mark ++ gaps), inner, after, by simp [hsource], by rw [hspan], ?_, ?_,
    hname, ⟨last, fun rest hrest ↦ ?_⟩, ⟨stop, fun a ↦ ?_⟩⟩
  · rw [hspan', hstop]
    simp only [byteLength_append]
    congr 1
    omega
  · rw [hvalueSpan, hstart, hstop]
    simp only [byteLength_append]
    congr 1 <;> omega
  · have hends' : Token.Ends last C.name.toList rest (.name C.name) := hrest
    exact hfront.before_token (.name hname) hnext hends'
  · rw [hvalueSpan, hspan']
    exact hclosed a

/-- The assignment written out. Where the expression goes is known, the other places may be any. -/
def expanded (nameSpan sign left place opening closing : Span) : StmtPhrase :=
  .assign C.name nameSpan none sign (.binary (.name C.name left) C.op place
    (.paren opening (C.value.edit (.plain (Span.rebase C.valueSpan.start C.inside))) closing))

namespace Cut

variable {C} {before gap inner after : List Char} (h : C.Cut before gap inner after)

include h

theorem slice_eq : (C.valueSpan.slice source).toList = inner := by
  rw [h.valueSpan_eq]
  refine @between_eq source _ inner after ?_
  simp [h.source_eq]

theorem toList_text : C.text.toList = (expansionHead C.name C.op).toList ++ (inner ++ [')']) := by
  simp [text, h.slice_eq]

theorem toList_result : C.result.toList = before ++ (C.text.toList ++ after) := by
  rw [result, writtenOutAt, h.span_eq]
  refine toList_replacedAt ?_ C.text
  simp [h.source_eq]

theorem inside_eq : C.inside = byteLength before + byteLength
    (expansionHead C.name C.op).toList := by
  rw [inside, h.span_eq, utf8ByteSize_eq_byteLength]

theorem resume_eq : C.resume = C.inside + byteLength inner + 1 := by
  rw [resume, h.inside_eq, h.span_eq, utf8ByteSize_eq_byteLength, h.toList_text]
  simp only [byteLength_append, show byteLength [')'] = 1 from rfl, Nat.add_assoc]

/-- The new text has the assignment written out where the assignment was. -/
theorem lex_result : ∃ nameSpan sign left place opening closing stop,
    lex C.result = .ok (C.front.flatMap Part.lexemes ++
      ((C.expanded nameSpan sign left place opening closing).lexemes ++
        ((C.back.flatMap Part.lexemes).map (Lexeme.rebase C.span.stop C.resume) ++
          [⟨.eof, stop⟩]))) := by
  obtain ⟨last, hfront⟩ := h.pieces
  obtain ⟨stop, hvalue⟩ := h.lexes
  have hinside := hvalue C.inside
  rw [← h.resume_eq] at hinside
  obtain ⟨nameSpan, sign, left, place, opening, hhead⟩ :=
    @Lexes.behind_expansionHead last _ _ _ _ _ h.isIdentifier _ h.inside_eq hinside
  refine ⟨nameSpan, sign, left, place, opening, ⟨C.inside + byteLength inner, C.resume⟩,
    stop.rebase C.span.stop C.resume, ?_⟩
  have htext : C.result.toList
      = before ++ ((expansionHead C.name C.op).toList ++ (inner ++ ')' :: after)) := by
    simp [h.toList_result, h.toList_text]
  obtain ⟨more, hmore⟩ := exists_expansionHead C.name C.op
  have hpieces := hfront (' ' :: (more ++ (inner ++ ')' :: after))) rfl
  rw [← List.cons_append, ← List.append_assoc, ← hmore] at hpieces
  rw [lex_eq_ok_iff, htext]
  have hall := hpieces.lexes (by rwa [Nat.zero_add])
  have hmoved : (Edit.plain (Span.rebase C.valueSpan.start C.inside)).lexeme
      = Lexeme.rebase C.valueSpan.start C.inside := rfl
  rw [expanded, StmtPhrase.lexemes, Phrase.lexemes, Phrase.lexemes, Phrase.lexemes,
    Phrase.lexemes_plain, hmoved]
  simpa [Lexeme.rebase] using hall

end Cut

/-! ### What is cut out of the new text -/

/-- The assignment is a stretch of the file. -/
def stretch : Stretch source C.result where
  front := C.front
  gone := C.stmt.lexemes
  back := C.back
  span := C.span
  resume := C.resume
  lexes := C.exists_lex
  first := by
    obtain ⟨before, gap, inner, after, h⟩ := C.exists_cut
    exact ⟨_, _, rfl, by rw [h.span_eq, h.start_eq]⟩
  last := by
    obtain ⟨before, gap, inner, after, h⟩ := C.exists_cut
    obtain ⟨stop, hlex⟩ := C.exists_lex
    obtain ⟨_, _, ms, m, -, hlast, -, hvalue⟩ := C.value.exists_ends hlex (C.value_sublist _)
    have hstop : m.span.stop = C.valueSpan.stop := by rw [valueSpan, hvalue]
    refine ⟨⟨.name C.name, C.nameSpan⟩ :: C.op.punct.at C.place :: Punct.eq.at C.sign ::
      ms, m, ?_, ?_⟩
    · rw [stmt, StmtPhrase.lexemes, hlast]
      rfl
    · rw [hstop, h.valueSpan_eq, h.span_eq]
      simp only [byteLength_append, Nat.add_assoc]
  cut := by
    obtain ⟨before, gap, inner, after, h⟩ := C.exists_cut
    refine ⟨before, C.name.toList ++ (gap ++ inner), after, C.text.toList, ?_, h.span_eq,
      h.toList_result, ?_⟩
    · simp [h.source_eq]
    · rw [resume, h.span_eq, utf8ByteSize_eq_byteLength]

/-- What stands in the expression is there, too. -/
theorem captured_value {x y : Nat} (hx : String.Pos.Raw.IsValid source ⟨x⟩)
    (hy : String.Pos.Raw.IsValid source ⟨y⟩) (hlo : C.valueSpan.start ≤ x) (hle : x ≤ y)
    (hhi : y ≤ C.valueSpan.stop) :
    Parser.captured C.result (Span.rebase C.valueSpan.start C.inside ⟨x, y⟩)
      = Parser.captured source ⟨x, y⟩ := by
  obtain ⟨before, gap, inner, after, h⟩ := C.exists_cut
  have hinside : C.inside = byteLength (before ++ (expansionHead C.name C.op).toList) := by
    rw [h.inside_eq, byteLength_append]
  have hstart : C.valueSpan.start = byteLength (before ++ (C.name.toList ++ gap)) := by
    rw [h.valueSpan_eq]
  rw [h.valueSpan_eq] at hlo hhi
  have hslice := @slice_rebase source C.result (before ++ (C.name.toList ++ gap))
    (before ++ (expansionHead C.name C.op).toList) inner after (')' :: after)
      (by simp [h.source_eq])
    (by simp [h.toList_result, h.toList_text]) x y hx hy hlo hle hhi
  rw [Parser.captured, Parser.captured, hstart, hinside, hslice]

theorem carries_value {m : Motion} (hm : m.Free) {part : Part} (h : part ∈ C.value.parts) :
    (Edit.plain (Span.rebase C.valueSpan.start C.inside)).Carries m source C.result part := by
  refine Edit.carries_plain hm ?_
  rintro word opening inner closing rfl
  obtain ⟨stop, hlex⟩ := C.exists_lex
  have hparts := C.value_sublist (C.back.flatMap Part.lexemes ++ [⟨.eof, stop⟩])
  rw [← C.value.flatMap_parts] at hparts
  obtain ⟨hopening, hclosing, hle⟩ := Part.calculation_edges hlex hparts h
  obtain ⟨_, hstands⟩ := (lex_tiles hlex).stands hopening
  obtain ⟨_, hstands'⟩ := (lex_tiles hlex).stands hclosing
  have hwithin : ∀ l ∈ (Part.calculation word opening inner closing).lexemes,
      C.valueSpan.start ≤ l.span.start ∧ l.span.stop ≤ C.valueSpan.stop := by
    intro l hl
    refine C.value.within_span hlex (C.value_sublist _) ?_
    rw [← C.value.flatMap_parts]
    exact List.mem_flatMap.2 ⟨_, h, hl⟩
  have hlo := (hwithin (Punct.openParen.at opening) (by simp [Part.lexemes, Phrase.lexemes])).1
  have hhi := (hwithin (Punct.closeParen.at closing) (by simp [Part.lexemes, Phrase.lexemes])).2
  refine C.captured_value hstands.stop hstands'.start ?_ hle ?_
  · exact hlo.trans ((lex_tiles hlex).start_le_stop hopening)
  · exact ((lex_tiles hlex).start_le_stop hclosing).trans hhi

end Compound

end CharacterScript
