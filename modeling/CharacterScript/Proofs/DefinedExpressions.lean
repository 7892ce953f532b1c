import CharacterScript.Proofs.Rereading

/-!
# The expressions a definition takes

A text that reads as an expression also reads as the body of a definition, with every place moved by
what stands in front of it (`definition_reads`). There is one exception. In a text of its own a `-`
right before the first digit is a sign. Behind the name of a definition it is not, because a name
ends an operand everywhere else, and so a text that starts with a signed number is refused there.

## What is behind a name

The lexer remembers one token, and it asks about it only in front of a minus sign. So a text is
read behind the name of a definition as it is read by itself, if its first token is not a number
with a sign; and if it is one, the sign is read as an operator that has no left operand.
-/

namespace CharacterScript

variable {last last' : Option Token} {t : Token} {offset : Nat}
variable {front rest text : List Char} {ts : List Lexeme}

/-! ## Behind a name -/

/-- A token that is not written with a `-` goes no further behind any other token. -/
theorem Token.Ends.behind_any (h : t.Ends none front rest) (hsign : front.head? ≠ some '-') :
    t.Ends last front rest := by
  cases t with
  | keyword k => cases k <;> exact h
  | number value =>
    obtain ⟨hdigits, hpoint, hzero, -⟩ := h
    exact ⟨hdigits, hpoint, hzero, fun hhead ↦ absurd hhead hsign⟩
  | punct p =>
    obtain ⟨hread, hslash, hminus, hampersand⟩ := h
    refine ⟨hread, hslash, fun hp ↦ ?_, hampersand⟩
    have hdigit := hminus hp
    rw [Piece.isSign, Option.any_none, Bool.not_false, Bool.and_true] at hdigit
    rw [Piece.isSign, hdigit, Bool.false_and]
  | directive | defineWord | calcWord | hex | text | name | reference => exact h
  | eof => exact h

/-- What is dropped in front of the first token is dropped anywhere. -/
theorem Pieces.gaps_anywhere (h : Pieces rest last offset text [] last') :
    ∀ (last : Option Token) (offset : Nat), Pieces rest last offset text [] last := by
  generalize hts : ([] : List Lexeme) = ts at h
  induction h with
  | done => exact fun _ _ ↦ .done
  | gap hgap _ ih => exact fun last offset ↦ .gap hgap (ih hts last _)
  | token => cases hts

/-- A text with its first token: what is dropped in front of it, the token, and the rest. -/
theorem Lexes.exists_first {l : Lexeme} (h : Lexes none 0 text (l :: ts)) (hl : l.token ≠ .eof) :
    ∃ gaps spelled rest, text = gaps ++ (spelled ++ rest) ∧
      (∀ last offset, Pieces (spelled ++ rest) last offset gaps [] last) ∧
      Spells l.token spelled ∧ l.token.Ends none spelled rest ∧
      l.span = ⟨byteLength gaps, byteLength gaps + byteLength spelled⟩ ∧
      Lexes (some l.token) (byteLength gaps + byteLength spelled) rest ts := by
  obtain ⟨gaps, spelled, rest, last', rfl, hgaps, hspells, hends, hspan, hrest⟩ :=
    h.exists_token hl (List.nil_append (l :: ts)).symm
  rw [Nat.zero_add] at hspan hrest
  obtain rfl : last' = none := hgaps.last_eq
  exact ⟨gaps, spelled, rest, rfl, hgaps.gaps_anywhere, hspells, hends, hspan, hrest⟩

/-- Whether the first token of the text is written with a `-` in front. -/
def startsSigned (source : String) (ts : List Lexeme) : Bool :=
  ts.head?.any fun l ↦ (l.span.slice source).toList.head? == some '-'

theorem startsSigned_cons {source : String} {l : Lexeme} {gaps spelled rest : List Char}
    (hsource : source.toList = gaps ++ (spelled ++ rest))
    (hspan : l.span = ⟨byteLength gaps, byteLength gaps + byteLength spelled⟩) :
    startsSigned source (l :: ts) = true ↔ spelled.head? = some '-' := by
  have hslice : (l.span.slice source).toList = spelled := by
    rw [hspan]
    exact between_eq hsource
  rw [startsSigned, List.head?_cons, Option.any_some, hslice, beq_iff_eq]

/-- A text that does not start with a sign is made of the same tokens behind any token. -/
theorem Lexes.behind_any {source : String} {l : Lexeme} (h : Lexes none 0 source.toList (l :: ts))
    (hl : l.token ≠ .eof) (hsign : startsSigned source (l :: ts) = false) (last : Option Token)
    (offset : Nat) : Lexes last offset source.toList ((l :: ts).map (Lexeme.rebase 0 offset)) := by
  obtain ⟨gaps, spelled, rest, hsource, hgaps, hspells, hends, hspan, hrest⟩ := h.exists_first hl
  rw [Bool.eq_false_iff, ne_eq, startsSigned_cons hsource hspan] at hsign
  have hplace : ∀ x, CharacterScript.rebase 0 offset x = offset + x := by
    intro x
    rw [CharacterScript.rebase]
    omega
  have hfirst : Lexes last (offset + byteLength gaps) (spelled ++ rest)
      (⟨l.token, l.span.rebase 0 offset⟩ :: ts.map (Lexeme.rebase 0 offset)) := by
    rw [hspan, Span.rebase, hplace, hplace, ← Nat.add_assoc]
    refine .token hspells (hends.behind_any hsign) (hrest.rebase 0 offset (Nat.zero_le _) ?_ rfl)
    rw [hplace, Nat.add_assoc]
  rw [hsource]
  exact (hgaps last offset).lexes hfirst

/-! ## The text of a definition

The body of a definition ends where the line does not matter: at the next item or at the end of
the file. Here it is the last thing in a file, so it is clear what ends it. -/

def definition (name text : String) : String :=
  "#define " ++ name ++ " " ++ text

/-- Where the body of a definition starts. -/
def bodyStart (name : String) : Nat :=
  9 + name.utf8ByteSize

/-- A definition is its word, its name and its body. -/
theorem lex_definition {name body : String} (hname : IsIdentifier name) {ls : List Lexeme}
    (h : Lexes (some (.name name)) (bodyStart name) body.toList ls) :
    lex (definition name body)
      = .ok (⟨.defineWord, ⟨0, 7⟩⟩ :: ⟨.name name, ⟨8, 8 + name.utf8ByteSize⟩⟩ :: ls) := by
  rw [lex_eq_ok_iff]
  have hblank : ∀ rest, Gap rest [' '] := fun rest ↦ .blank (by decide)
  have hsplit : (definition name body).toList
      = '#' :: "define".toList ++ ([' '] ++ (name.toList ++ ([' '] ++ body.toList))) := by
    simp [definition]
  have hone : byteLength [' '] = 1 := rfl
  have hword : byteLength ('#' :: "define".toList) = 7 := rfl
  have hsize : bodyStart name = 8 + byteLength name.toList + 1 := by
    rw [bodyStart, utf8ByteSize_eq_byteLength]
    omega
  rw [hsize] at h
  have hlexes : Lexes none 0 _ _ := .token .defineWord (noneNext_cons.2 rfl)
    (.gap (hblank _) (.token (.name hname) (noneNext_cons.2 rfl) (.gap (hblank _) h)))
  rw [hsplit, utf8ByteSize_eq_byteLength]
  exact hlexes

theorem toList_definition (name text : String) :
    ∃ before, byteLength before = bodyStart name ∧
      (definition name text).toList = before ++ (text.toList ++ []) := by
  refine ⟨"#define ".toList ++ (name.toList ++ " ".toList), ?_, ?_⟩
  · rw [byteLength_append, byteLength_append, ← utf8ByteSize_eq_byteLength name, bodyStart,
      show byteLength "#define ".toList = 8 from rfl, show byteLength " ".toList = 1 from rfl]
    omega
  · simp [definition]

/-- The definition of a name as the expression that its body, read as a text of its own, is. -/
def definedItem (name text : String) (e : Expr) : Item :=
  .define ⟨name, ⟨8, 8 + name.utf8ByteSize⟩, e.relocate (Span.map (· + bodyStart name)),
    Parser.captured text e.span, ⟨0, e.span.stop + bodyStart name⟩⟩

/-- A text that is an expression and does not start with a sign is the body of a definition. -/
theorem readsAs_definition {name : String} {e : Expr} {text : String} (hname : IsIdentifier name)
    (hlex : lex text = .ok ts) (hparse : parseExpression text ts = .ok e)
    (hsign : startsSigned text ts = false) :
    ReadsAs (definition name text) [definedItem name text e] := by
  obtain ⟨p, ⟨stop, hlex', hwhole⟩, rfl⟩ := exists_fills hlex hparse
  cases hlex.symm.trans hlex'
  set body := p.edit (.plain (Span.map (· + bodyStart name))) with hbody
  have htree : body.tree (definition name text)
      = (p.tree text).relocate (Span.map (· + bodyStart name)) := by
    obtain ⟨before, hbefore, htext⟩ := toList_definition name text
    have hfills : p.Fills text := ⟨stop, hlex, hwhole⟩
    have hwithin := hfills.tree_within htext
    rwa [hbefore] at hwithin
  have hlexes : Lexes (some (.name name)) (bodyStart name) text.toList
      ((p.lexemes ++ [(⟨.eof, stop⟩ : Lexeme)]).map (Lexeme.rebase 0 (bodyStart name))) := by
    obtain ⟨l, more, hfirst⟩ := List.exists_cons_of_length_pos p.length_lexemes_pos
    have hl : l.token ≠ .eof := p.noEof l (hfirst ▸ List.mem_cons_self)
    have halone := lex_eq_ok_iff.1 hlex
    rw [hfirst] at halone hsign ⊢
    exact halone.behind_any hl hsign _ _
  -- the places of the expression are places of its text
  have hedged : (p.tree text).span.Edged (p.lexemes ++ [⟨.eof, stop⟩]) :=
    p.edged_span (List.subset_append_left _ _)
  obtain ⟨hstart, hstop, hle⟩ := hedged.valid hlex (List.Subset.refl _)
  refine readsAs_iff.2 ⟨[.define ⟨0, 7⟩ name ⟨8, 8 + name.utf8ByteSize⟩ body],
    ⟨stop.rebase 0 (bodyStart name), ?_, ?_, trivial⟩, ?_⟩
  · rw [lex_definition hname hlexes, List.map_append]
    simp only [List.flatMap_cons, List.flatMap_nil, List.append_nil, ItemPhrase.lexemes, hbody,
      Phrase.lexemes_plain]
    rfl
  · exact hwhole.edit (Edit.plain_fits _) rfl
  · obtain ⟨before, hbefore, htext⟩ := toList_definition name text
    have hcaptured := captured_within htext hstart hstop hle
    rw [hbefore] at hcaptured
    have htext' : Parser.captured (definition name text)
        ((p.tree text).span.map (· + bodyStart name))
        = Parser.captured text (p.tree text).span := hcaptured
    have hspan : Span.merge ⟨0, 7⟩ ((p.tree text).span.map (· + bodyStart name))
        = ⟨0, (p.tree text).span.stop + bodyStart name⟩ := by
      have hseven : 7 ≤ (p.tree text).span.stop + bodyStart name := by
        rw [bodyStart]
        omega
      show (⟨min 0 _, max 7 ((p.tree text).span.stop + bodyStart name)⟩ : Span) = _
      rw [Nat.zero_min, max_eq_right hseven]
    rw [List.map_singleton, ItemPhrase.tree, htree, Expr.span_relocate, htext', hspan]
    rfl

/-! ## A sign in front

The first lexeme of an expression that starts with a signed number is this number, whatever else the
expression is. With the minus as an operator the reader stops at the first lexeme of the body. -/

/-- The first token of an expression, if it is written with a `-` in front, is a signed number. -/
theorem Phrase.exists_negative {p : Phrase} {l : Lexeme} {more : List Lexeme} {spelled : List Char}
    (hp : p.lexemes = l :: more) (hspells : Spells l.token spelled)
    (hhead : spelled.head? = some '-') :
    ∃ whole fraction, IsDecimal whole fraction ∧ spelled = '-' :: decimalText whole fraction ∧
      l.token = .number (-Piece.decimalValue whole fraction) := by
  have hstart := p.startsExpr_lexemes []
  rw [List.append_nil, hp] at hstart
  obtain ⟨t, span⟩ := l
  dsimp only at hspells
  cases hspells with
  | @negative whole fraction h => exact ⟨whole, fraction, h, rfl, rfl⟩
  | @keyword k => cases k <;> cases hhead
  | elif | defineWord | calcWord | directive | hex | text | reference => cases hhead
  | punct p => cases p <;> cases hhead <;> cases hstart
  | number h =>
    obtain ⟨d, digits, hcons, hd⟩ := Piece.IsDecimal.exists_cons h
    rw [hcons] at hhead
    cases hhead
    exact absurd hd (by decide)
  | name h =>
    have hword := h.start
    rw [hhead] at hword
    exact absurd hword (by decide)

/-- No keyword starts with an `x`, so what does is a name. -/
theorem Lexes.exists_name {c : Char} (h : Lexes last offset (c :: rest) ts)
    (hc : c = 'x' ∨ c = 'X') :
    ∃ s span more, ts = ⟨.name s, span⟩ :: more := by
  have hstart : isWordStart c = true := by obtain rfl | rfl := hc <;> decide
  generalize htext : c :: rest = text at h
  cases h with
  | done => cases htext
  | gap hgap =>
    obtain ⟨d, front, rfl⟩ := List.exists_cons_of_ne_nil hgap.ne_nil
    obtain ⟨rfl, -⟩ := List.cons.inj htext
    rw [hgap.isWordStart_head] at hstart
    cases hstart
  | @token _ _ t front more ts hspells =>
    have hhead : front.head? = some c := by
      obtain ⟨d, front, rfl⟩ := List.exists_cons_of_ne_nil hspells.ne_nil
      obtain ⟨rfl, -⟩ := List.cons.inj htext
      rfl
    cases hspells with
    | name h => exact ⟨_, _, _, rfl⟩
    | @keyword k => obtain rfl | rfl := hc <;> cases k <;> cases hhead
    | punct p => obtain rfl | rfl := hc <;> cases p <;> cases hhead
    | number h =>
      obtain ⟨d, digits, hcons, hd⟩ := Piece.IsDecimal.exists_cons h
      rw [hcons] at hhead
      cases hhead
      rw [Piece.isDigit_eq_false hstart] at hd
      cases hd
    | elif | defineWord | calcWord | directive | negative | hex | text | reference =>
      obtain rfl | rfl := hc <;> cases hhead

/-- Behind a number at the start of an expression comes no `x`, which would make it hexadecimal. -/
theorem Phrase.noneNext_x {p : Phrase} {l : Lexeme} {more : List Lexeme} {stop : Span}
    (hp : p.lexemes = l :: more) (hl : l.token.isNumeral = true)
    (hrest : Lexes last offset rest (more ++ [⟨.eof, stop⟩])) :
    NoneNext (fun x ↦ x == 'x' || x == 'X') rest := by
  cases rest with
  | nil => exact noneNext_nil _
  | cons c rest =>
    rw [noneNext_cons, Bool.eq_false_iff]
    intro hc
    obtain ⟨s, span, after, hname⟩ := hrest.exists_name (by simpa using hc)
    have hparted := p.parted
    rw [hp] at hparted
    cases more with
    | nil => cases hname
    | cons m more =>
      obtain ⟨rfl, -⟩ := List.cons.inj hname
      exact (List.isChain_cons_cons.1 hparted).1 hl s rfl

/-- Behind a name, a `-` in front of a number is a token of its own. -/
theorem lexes_minus_number (name : String) {whole fraction : List Char}
    (h : IsDecimal whole fraction)
    (hends : Token.Ends none ('-' :: decimalText whole fraction) rest
      (.number (-Piece.decimalValue whole fraction)))
    (hx : NoneNext (fun x ↦ x == 'x' || x == 'X') rest)
    (hrest : Lexes (some (.number (Piece.decimalValue whole fraction)))
      (offset + 1 + byteLength (decimalText whole fraction)) rest ts) :
    Lexes (some (.name name)) offset ('-' :: decimalText whole fraction ++ rest)
      (⟨.punct .minus, ⟨offset, offset + 1⟩⟩ :: ⟨.number (Piece.decimalValue whole fraction),
        ⟨offset + 1, offset + 1 + byteLength (decimalText whole fraction)⟩⟩ :: ts) := by
  obtain ⟨hdigits, hpoint, -, -⟩ := hends
  have hnumber : Token.Ends (some (.punct .minus)) (decimalText whole fraction) rest
      (.number (Piece.decimalValue whole fraction)) := by
    refine ⟨hdigits, fun hmem ↦ hpoint ?_, fun _ ↦ hx, fun _ ↦ rfl⟩
    exact List.not_mem_cons_of_ne_of_not_mem (by decide) hmem
  have hminus : Token.Ends (some (.name name)) ['-'] (decimalText whole fraction ++ rest)
      (.punct .minus) := by
    obtain ⟨d, digits, hcons, hd⟩ := Piece.IsDecimal.exists_cons h
    refine ⟨?_, nofun, fun _ ↦ Bool.and_false _, nofun⟩
    rw [Punct.read?_take, hcons]
    have hdash : ('-' == d) = false := by
      rw [beq_eq_false_iff_ne]
      rintro rfl
      exact absurd hd (by decide)
    simp [Punct.read?, Punct.all, Punct.spelling, List.isPrefixOf, hdash]
  exact .token (.punct .minus) hminus (.token (.number h) hnumber hrest)

/-- No expression starts with a `-`. -/
theorem parseFile_define_minus {source name : String} {word nameSpan sign : Span}
    (more : List Lexeme) :
    parseFile source (⟨.defineWord, word⟩ :: ⟨.name name, nameSpan⟩ :: ⟨.punct .minus, sign⟩ ::
      more) = .error ⟨.expression, .punct .minus, sign⟩ := by
  rfl

/-- A text that is an expression and starts with a sign is refused as the body of a definition, at
the sign. -/
theorem definition_stops {name : String} {e : Expr} {text : String} (hname : IsIdentifier name)
    (hlex : lex text = .ok ts) (hparse : parseExpression text ts = .ok e)
    (hsign : startsSigned text ts = true) : ∃ l all, ts.head? = some l ∧
      lex (definition name text) = .ok all ∧ parseFile (definition name text) all =
        .error ⟨.expression, .punct .minus,
          ⟨l.span.start + bodyStart name, l.span.start + bodyStart name + 1⟩⟩ := by
  obtain ⟨p, ⟨stop, hlex', -⟩, rfl⟩ := exists_fills hlex hparse
  cases hlex.symm.trans hlex'
  obtain ⟨l, more, hfirst⟩ := List.exists_cons_of_length_pos p.length_lexemes_pos
  have hl : l.token ≠ .eof := p.noEof l (hfirst ▸ List.mem_cons_self)
  have hlexes := lex_eq_ok_iff.1 hlex
  rw [hfirst, List.cons_append] at hlexes hsign ⊢
  obtain ⟨gaps, spelled, rest, htext, hgaps, hspells, hends, hspan, hrest⟩ := hlexes.exists_first hl
  rw [startsSigned_cons htext hspan] at hsign
  obtain ⟨whole, fraction, hdecimal, rfl, htoken⟩ := Phrase.exists_negative hfirst hspells hsign
  have hnumeral : l.token.isNumeral = true := by rw [htoken]; rfl
  have hx := Phrase.noneNext_x hfirst hnumeral hrest
  rw [htoken] at hends hrest
  have hplace : rebase 0 (bodyStart name)
      (byteLength gaps + byteLength ('-' :: decimalText whole fraction))
      = bodyStart name + byteLength gaps + 1 + byteLength (decimalText whole fraction) := by
    rw [rebase, byteLength_cons, show '-'.utf8Size = 1 from rfl]
    omega
  have hafter : Lexes (some (.number (Piece.decimalValue whole fraction))) _ rest _ :=
    hrest.rebase 0 (bodyStart name) (Nat.zero_le _) hplace.symm rfl
  have hbody := (hgaps _ _).lexes (lexes_minus_number name hdecimal hends hx hafter)
  rw [← htext] at hbody
  refine ⟨l, _, rfl, lex_definition hname hbody, ?_⟩
  rw [hspan, Nat.add_comm (byteLength gaps)]
  exact parseFile_define_minus _

/-- A text that reads as an expression is the body of a definition, with every place moved by what
stands in front of it, exactly if it does not start with a sign. If it does, the sign is read as a
token of its own, and the definition is refused there. -/
theorem definition_reads {name : String} {e : Expr} {text : String} (hname : IsIdentifier name)
    (hlex : lex text = .ok ts) (hparse : parseExpression text ts = .ok e) :
    (startsSigned text ts = false → ReadsAs (definition name text) [definedItem name text e]) ∧
    (startsSigned text ts = true → ∃ l all, ts.head? = some l ∧
      lex (definition name text) = .ok all ∧ parseFile (definition name text) all =
        .error ⟨.expression, .punct .minus,
          ⟨l.span.start + bodyStart name, l.span.start + bodyStart name + 1⟩⟩) :=
  ⟨readsAs_definition hname hlex hparse, definition_stops hname hlex hparse⟩

instance (s : String) : Decidable (IsIdentifier s) :=
  decidable_of_iff
    (s.toList.head?.any isWordStart = true ∧ IsWord s ∧ Keyword.ofWord? s = none)
    ⟨fun h ↦ ⟨h.1, h.2.1, h.2.2⟩, fun h ↦ ⟨h.start, h.isWord, h.notKeyword⟩⟩

/-- A text that reads as an expression when it is tried reads as one. -/
theorem exists_expression {α : Type} (text : String) (f : List Lexeme → Expr → α) (a : α)
    (h : ((lex text).toOption.bind fun ts ↦ (parseExpression text ts).toOption.map (f ts)) =
    some a) :
    ∃ ts e, lex text = .ok ts ∧ parseExpression text ts = .ok e ∧ f ts e = a := by
  obtain ⟨ts, hlex, h⟩ := Option.bind_eq_some_iff.1 h
  obtain ⟨e, hparse, rfl⟩ := Option.map_eq_some_iff.1 h
  exact ⟨ts, e, Running.toOption_eq_some.1 hlex, Running.toOption_eq_some.1 hparse, rfl⟩

/-- `x -1 - -2` is the body of a definition, and `-2 * x` is not. -/
theorem definition_reads_sample :
    (∃ ts e, lex "x -1 - -2" = .ok ts ∧ parseExpression "x -1 - -2" ts = .ok e ∧
      ReadsAs (definition "N" "x -1 - -2") [definedItem "N" "x -1 - -2" e]) ∧
    ∃ ts e l all, lex "-2 * x" = .ok ts ∧ parseExpression "-2 * x" ts = .ok e ∧ ts.head? = some l ∧
      lex (definition "N" "-2 * x") = .ok all ∧ parseFile (definition "N" "-2 * x") all =
        .error ⟨.expression, .punct .minus,
          ⟨l.span.start + bodyStart "N", l.span.start + bodyStart "N" + 1⟩⟩ := by
  have hN : IsIdentifier "N" := by decide
  obtain ⟨ts, e, hlex, hparse, hsign⟩ :=
    exists_expression "x -1 - -2" (fun ts _ ↦ startsSigned "x -1 - -2" ts) false (by decide +kernel)
  obtain ⟨ts', e', hlex', hparse', hsign'⟩ :=
    exists_expression "-2 * x" (fun ts _ ↦ startsSigned "-2 * x" ts) true (by decide +kernel)
  obtain ⟨l, all, hstops⟩ := (definition_reads hN hlex' hparse').2 hsign'
  exact ⟨⟨ts, e, hlex, hparse, (definition_reads hN hlex hparse).1 hsign⟩,
    ts', e', l, all, hlex', hparse', hstops⟩

/-- A number with a sign is an expression, but no definition has it as its body. -/
theorem minus_one_not_defined :
    (∃ ts e, lex "-1" = .ok ts ∧ parseExpression "-1" ts = .ok e) ∧ IsIdentifier "N" ∧
      ∀ items, ¬ ReadsAs "#define N -1" items := by
  obtain ⟨ts, e, hlex, hparse, -⟩ :=
    exists_expression "-1" (fun ts _ ↦ startsSigned "-1" ts) true (by decide +kernel)
  refine ⟨⟨ts, e, hlex, hparse⟩, by decide, ?_⟩
  rintro items ⟨all, hall, hitems⟩
  have hrefused : ((lex "#define N -1").toOption.bind fun ts ↦
      (parseFile "#define N -1" ts).toOption.map List.length) = none := by
    decide +kernel
  simp [hall, hitems, Except.toOption] at hrefused

end CharacterScript
