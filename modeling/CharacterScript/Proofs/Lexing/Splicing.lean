import CharacterScript.Proofs.Tokenization

/-!
# A text in parentheses in place of a name

What stands in a text is read by looking a little ahead and at the token before. So a part of it can
be read without the rest, as long as what comes behind does not go on with its last piece: `Pieces`
is `Lexes` for a part of a text. A parenthesis goes on with nothing, so the part in front of a word
is made of the same pieces in front of a parenthesis (`Pieces.neutral`), and a whole text is made of
the same pieces in front of a closing parenthesis (`Lexes.between_parens`). The end of a line goes
on with nothing either.

## Line comments

There is one exception. A line comment takes in everything up to the end of its line, so a text that
ends in one takes in the parenthesis (`EndsInLineComment`).

## Offsets

A lexeme that is read elsewhere is the same lexeme at another place, and `Lexeme.rebase` says at
which: the distance to the start of the part is kept. Spans are compared by it throughout, so that
no proof has to add and subtract offsets by hand.
-/

namespace CharacterScript

variable {last last' : Option Token} {t : Token} {offset : Nat}
variable {front more rest rest' text : List Char} {ts : List Lexeme}

/-! ## Parts of a text -/

/-- The text, in front of `rest` and behind the token `last`, is made of gaps and of the tokens
`ts`, and `last'` is the last token then. -/
inductive Pieces (rest : List Char) : Option Token → Nat → List Char → List Lexeme →
    Option Token → Prop
  | done {last : Option Token} {offset : Nat} : Pieces rest last offset [] [] last
  | gap {last last' : Option Token} {offset : Nat} {front more : List Char} {ts : List Lexeme}
    (hgap : Gap (more ++ rest) front)
    (hmore : Pieces rest last (offset + byteLength front) more ts last') :
    Pieces rest last offset (front ++ more) ts last'
  | token {last last' : Option Token} {offset : Nat} {t : Token} {front more : List Char}
    {ts : List Lexeme} (hspells : Spells t front) (hends : t.Ends last front (more ++ rest))
    (hmore : Pieces rest (some t) (offset + byteLength front) more ts last') :
    Pieces rest last offset (front ++ more) (⟨t, ⟨offset, offset + byteLength front⟩⟩ :: ts) last'

theorem Pieces.lexes {ts' : List Lexeme} (h : Pieces rest last offset text ts last')
    (hrest : Lexes last' (offset + byteLength text) rest ts') :
    Lexes last offset (text ++ rest) (ts ++ ts') := by
  induction h with
  | done => exact hrest
  | gap hgap _ ih =>
    rw [List.append_assoc]
    refine .gap hgap (ih ?_)
    rwa [byteLength_append, ← Nat.add_assoc] at hrest
  | token hspells hends _ ih =>
    rw [List.append_assoc, List.cons_append]
    refine .token hspells hends (ih ?_)
    rwa [byteLength_append, ← Nat.add_assoc] at hrest

/-- The walk goes over a part of a text as its pieces say, whatever comes behind. -/
theorem Pieces.lexFrom_eq (h : Pieces rest last offset text ts last') :
    ∀ done : List Lexeme, done.head?.map (·.token) = last →
      lexFrom offset 0 done (text ++ rest)
          = lexFrom (offset + byteLength text) 0 (ts.reverse ++ done) rest ∧
        (ts.reverse ++ done).head?.map (·.token) = last' := by
  induction h with
  | done => exact fun done hdone ↦ ⟨rfl, hdone⟩
  | gap hgap _ ih =>
    intro done hdone
    obtain ⟨c, front, rfl⟩ := List.exists_cons_of_ne_nil hgap.ne_nil
    obtain ⟨hwalk, hlast⟩ := ih done hdone
    rw [List.append_assoc, lexFrom_gap hgap, hwalk, byteLength_append, Nat.add_assoc]
    exact ⟨rfl, hlast⟩
  | @token _ _ offset t front more ts hspells hends _ ih =>
    intro done hdone
    obtain ⟨c, front, rfl⟩ := List.exists_cons_of_ne_nil hspells.ne_nil
    obtain ⟨hwalk, hlast⟩ := ih (⟨t, ⟨offset, offset + byteLength (c :: front)⟩⟩ :: done) rfl
    rw [List.append_assoc, lexFrom_token hspells (hdone ▸ hends), hwalk, byteLength_append,
      Nat.add_assoc, List.reverse_cons, List.append_assoc]
    exact ⟨rfl, hlast⟩

/-- A text can be cut where one of its tokens stands. -/
theorem Lexes.exists_token {l : Lexeme} (hl : l.token ≠ .eof) :
    ∀ {before after : List Lexeme}, ts = before ++ l :: after → Lexes last offset text ts →
    ∃ front spelled rest last', text = front ++ (spelled ++ rest) ∧
      Pieces (spelled ++ rest) last offset front before last' ∧
      Spells l.token spelled ∧ l.token.Ends last' spelled rest ∧
      l.span = ⟨offset + byteLength front, offset + byteLength front + byteLength spelled⟩ ∧
      Lexes (some l.token) (offset + byteLength front + byteLength spelled) rest after := by
  intro before after hts h
  induction h generalizing before with
  | done =>
    cases before with
    | nil =>
      cases hts
      exact absurd rfl hl
    | cons m before => cases before <;> cases hts
  | gap hgap _ ih =>
    obtain ⟨front, spelled, rest, last', rfl, hpieces, hspells, hends, hspan, hafter⟩ := ih hts
    refine ⟨_ ++ front, spelled, rest, last', by rw [List.append_assoc], .gap hgap hpieces, hspells,
      hends, ?_, ?_⟩
    · rw [hspan, byteLength_append, Nat.add_assoc]
    · rwa [byteLength_append, ← Nat.add_assoc]
  | @token last offset t spelled rest ts hspells hends hrest ih =>
    cases before with
    | nil =>
      cases hts
      exact ⟨[], spelled, rest, last, rfl, .done, hspells, hends, rfl, hrest⟩
    | cons m before =>
      cases hts
      obtain ⟨front, spelled', rest', last', rfl, hpieces, hspells', hends', hspan, hafter⟩ :=
        ih rfl
      refine ⟨_ ++ front, spelled', rest', last', by rw [List.append_assoc],
        .token hspells hends hpieces, hspells', hends', ?_, ?_⟩
      · rw [hspan, byteLength_append, Nat.add_assoc]
      · rwa [byteLength_append, ← Nat.add_assoc]

/-- A whole text is a part of itself. -/
theorem Lexes.pieces {stop : Span} : ∀ {before : List Lexeme}, (∀ l ∈ before, l.token ≠ .eof) →
    ts = before ++ [⟨.eof, stop⟩] → Lexes last offset text ts →
    ∃ last', Pieces [] last offset text before last' := by
  intro before hbefore hts h
  induction h generalizing before with
  | done =>
    cases before with
    | nil => exact ⟨_, .done⟩
    | cons m before => cases before <;> cases hts
  | gap hgap _ ih =>
    obtain ⟨last', hpieces⟩ := ih hbefore hts
    exact ⟨last', .gap (by rwa [List.append_nil]) hpieces⟩
  | token hspells hends _ ih =>
    cases before with
    | nil =>
      cases hts
      cases hspells
    | cons m before =>
      cases hts
      obtain ⟨last', hpieces⟩ := ih (List.forall_mem_cons.1 hbefore).2 rfl
      exact ⟨last', .token hspells (by rwa [List.append_nil]) hpieces⟩

/-! ## Elsewhere -/

/-- An offset counted from another place. -/
def rebase (base base' : Nat) (x : Nat) : Nat :=
  x - base + base'

def Span.rebase (base base' : Nat) (s : Span) : Span :=
  ⟨CharacterScript.rebase base base' s.start, CharacterScript.rebase base base' s.stop⟩

def Lexeme.rebase (base base' : Nat) (l : Lexeme) : Lexeme :=
  ⟨l.token, l.span.rebase base base'⟩

theorem Token.Ends.behind (h : t.Ends last front rest)
    (hlast : last.any Token.endsOperand = last'.any Token.endsOperand) :
      t.Ends last' front rest := by
  cases t with
  | keyword k => cases k <;> exact h
  | number value =>
    obtain ⟨hdigits, hpoint, hzero, hsign⟩ := h
    exact ⟨hdigits, hpoint, hzero, fun hhead ↦ hlast ▸ hsign hhead⟩
  | punct p =>
    obtain ⟨hread, hslash, hminus, hampersand⟩ := h
    refine ⟨hread, hslash, fun hp ↦ ?_, hampersand⟩
    have hsign := hminus hp
    rw [Piece.isSign] at hsign ⊢
    rwa [← hlast]
  | directive | defineWord | calcWord | hex | text | name | reference => exact h
  | eof => exact h

/-- A text reads alike at another place, behind another token that ends an operand or does not. -/
theorem Lexes.rebase (h : Lexes last offset text ts) (base base' : Nat) :
    ∀ {offset' : Nat} {last' : Option Token}, base ≤ offset → offset' = rebase base base' offset →
      last.any Token.endsOperand = last'.any Token.endsOperand →
      Lexes last' offset' text (ts.map (Lexeme.rebase base base')) := by
  have hadd : ∀ {offset : Nat} (n : Nat), base ≤ offset →
      CharacterScript.rebase base base' offset + n =
        CharacterScript.rebase base base' (offset + n) := by
    intro offset n hbase
    rw [CharacterScript.rebase, CharacterScript.rebase]
    omega
  induction h with
  | done =>
    rintro _ last' - rfl -
    exact .done
  | gap hgap _ ih =>
    rintro _ last' hbase rfl hlast
    exact .gap hgap (ih (by omega) (hadd _ hbase) hlast)
  | @token last offset t front rest ts hspells hends _ ih =>
    rintro _ last' hbase rfl hlast
    rw [List.map_cons, Lexeme.rebase, Span.rebase]
    dsimp only
    rw [← hadd _ hbase]
    exact .token hspells (hends.behind hlast) (ih (by omega) (hadd _ hbase) rfl)

/-! ### Slices -/

theorem append_of_byteLength_le {a b rest rest' : List Char} (h : a ++ rest = b ++ rest')
    (hle : byteLength b ≤ byteLength a) : ∃ c, a = b ++ c ∧ rest' = c ++ rest := by
  obtain ⟨c, rfl, rfl⟩ | ⟨c, rfl, rfl⟩ := List.append_eq_append_iff.1 h
  · rw [byteLength_append] at hle
    cases c with
    | nil => exact ⟨[], by simp, rfl⟩
    | cons d c =>
      have hpos := d.utf8Size_pos
      rw [byteLength_cons] at hle
      omega
  · exact ⟨c, rfl, rfl⟩

/-- Two places of a text cut it in three. -/
theorem exists_cut {source : String} {x y : Nat} (hx : String.Pos.Raw.IsValid source ⟨x⟩)
    (hy : String.Pos.Raw.IsValid source ⟨y⟩) (hle : x ≤ y) :
    ∃ front mid back, source.toList = front ++ (mid ++ back) ∧ byteLength front = x ∧
      byteLength front + byteLength mid = y := by
  have hsplit : ∀ {z : Nat}, String.Pos.Raw.IsValid source ⟨z⟩ →
      ∃ front back, source.toList = front ++ back ∧ byteLength front = z := by
    intro z hz
    obtain ⟨s, t, rfl, hend⟩ := String.Pos.Raw.isValid_iff_exists_append.1 hz
    refine ⟨s.toList, t.toList, String.toList_append, ?_⟩
    rw [← utf8ByteSize_eq_byteLength]
    exact (congrArg String.Pos.Raw.byteIdx hend).symm
  obtain ⟨front, back, hfront, rfl⟩ := hsplit hx
  obtain ⟨front', back', hfront', rfl⟩ := hsplit hy
  obtain ⟨mid, rfl, rfl⟩ := append_of_byteLength_le (hfront'.symm.trans hfront) hle
  exact ⟨front, mid, back', hfront, rfl, (byteLength_append _ _).symm⟩

/-- A stretch that two texts have in common has the same parts in both. -/
theorem slice_rebase {source source' : String} {before before' mid after after' : List Char}
    (h : source.toList = before ++ (mid ++ after)) (h' : source'.toList =
    before' ++ (mid ++ after'))
    {x y : Nat} (hx : String.Pos.Raw.IsValid source ⟨x⟩) (hy : String.Pos.Raw.IsValid source ⟨y⟩)
    (hlo : byteLength before ≤ x) (hle : x ≤ y) (hhi : y ≤ byteLength before + byteLength mid) :
    Span.slice source' (Span.rebase (byteLength before) (byteLength before') ⟨x, y⟩)
      = Span.slice source ⟨x, y⟩ := by
  obtain ⟨front, part, back, hcut, rfl, rfl⟩ := exists_cut hx hy hle
  obtain ⟨front, rfl, hmid⟩ := append_of_byteLength_le (hcut.symm.trans h) hlo
  rw [byteLength_append] at hhi
  have hpart : byteLength (front ++ part) ≤ byteLength mid := by
    rw [byteLength_append]
    omega
  obtain ⟨rest, rfl, hback⟩ :=
    append_of_byteLength_le (hmid.trans (List.append_assoc _ _ _).symm) hpart
  have hthere := @between_eq source' (before' ++ front) part (rest ++ after') (by
    rw [h']
    simp only [List.append_assoc])
  have hhere := @between_eq source (before ++ front) part back hcut
  rw [← String.toList_inj]
  have hspan : Span.rebase (byteLength before) (byteLength before')
      ⟨byteLength (before ++ front), byteLength (before ++ front) + byteLength part⟩
      = ⟨byteLength (before' ++ front), byteLength (before' ++ front) + byteLength part⟩ := by
    simp only [Span.rebase, rebase, byteLength_append, Span.mk.injEq]
    omega
  rw [hspan]
  exact hthere.trans hhere.symm

/-! ## In front of something else

A character is neutral if it goes on with no token that ends in front of it, whatever follows.
Both parentheses are, and so is a line feed, but no blank: blanks may stand in a path. -/

/-- Nothing that could go on with a piece. -/
def Neutral (rest : List Char) : Prop :=
  ∀ c, rest.head? = some c → c = '(' ∨ c = ')' ∨ c = '\n'

theorem neutral_nil : Neutral [] := nofun

theorem neutral_openParen (rest : List Char) : Neutral ('(' :: rest) := by
  rintro _ ⟨⟩
  exact .inl rfl

theorem neutral_closeParen (rest : List Char) : Neutral (')' :: rest) := by
  rintro _ ⟨⟩
  exact .inr (.inl rfl)

theorem neutral_lineFeed (rest : List Char) : Neutral ('\n' :: rest) := by
  rintro _ ⟨⟩
  exact .inr (.inr rfl)

/-- A class that leaves out what is neutral. -/
def SparesNeutral (p : Char → Bool) : Prop :=
  p '(' = false ∧ p ')' = false ∧ p '\n' = false

instance (p : Char → Bool) : Decidable (SparesNeutral p) :=
  inferInstanceAs (Decidable (_ ∧ _))

theorem Neutral.noneNext {p : Char → Bool} (hrest : Neutral rest) (hp : SparesNeutral p) :
    NoneNext p rest := by
  cases rest with
  | nil => exact noneNext_nil p
  | cons c rest =>
    rw [noneNext_cons]
    obtain rfl | rfl | rfl := hrest c rfl
    · exact hp.1
    · exact hp.2.1
    · exact hp.2.2

/-- What is not next stays so, with something neutral behind it. -/
theorem NoneNext.neutral {p : Char → Bool} (h : NoneNext p (more ++ rest)) (hrest : Neutral rest')
    (hp : SparesNeutral p) : NoneNext p (more ++ rest') := by
  cases more with
  | nil => exact hrest.noneNext hp
  | cons c more => exact h

/-- Two characters decide which mark comes next. -/
theorem Punct.read?_take (cs : List Char) : Punct.read? cs = Punct.read? (cs.take 2) := by
  have hprefix : ∀ p : Punct,
      p.spelling.toList.isPrefixOf cs = p.spelling.toList.isPrefixOf (cs.take 2) := by
    intro p
    rcases cs with _ | ⟨a, _ | ⟨b, cs⟩⟩
    · rfl
    · rfl
    · cases p <;> simp [Punct.spelling, List.isPrefixOf]
  rw [Punct.read?, Punct.read?]
  congr 1
  funext p
  exact hprefix p

theorem Punct.read?_neutral (p : Punct)
    (h : Punct.read? (p.spelling.toList ++ (more ++ rest)) = some p)
    (hrest : Neutral rest') : Punct.read? (p.spelling.toList ++ (more ++ rest')) = some p := by
  cases more with
  | cons c more =>
    rw [Punct.read?_take] at h ⊢
    have htake : (p.spelling.toList ++ (c :: more ++ rest')).take 2
        = (p.spelling.toList ++ (c :: more ++ rest)).take 2 := by
      cases p <;> rfl
    rwa [htake]
  | nil =>
    cases rest' with
    | nil => cases p <;> rfl
    | cons c rest' =>
      rw [Punct.read?_take]
      obtain rfl | rfl | rfl := hrest c rfl
      all_goals cases p <;> rfl

theorem Piece.isSign_neutral (h : Piece.isSign last (more ++ rest) = false)
    (hrest : Neutral rest') :
    Piece.isSign last (more ++ rest') = false := by
  cases more with
  | cons c more => exact h
  | nil =>
    have hdigit : rest'.head?.any Char.isDigit = false := hrest.noneNext (by decide)
    rw [List.nil_append, Piece.isSign, hdigit, Bool.false_and]

/-- Whether a token goes no further shows in front of anything neutral, if it is no directive, whose
path goes on up to the end of the line, and no `else`. -/
theorem Token.Ends.neutral (h : t.Ends last front (more ++ rest)) (hspells : Spells t front)
    (hrest : Neutral rest')
    (hline : NoneNext (· != '\n') (more ++ rest) → (∃ d path, t = .directive d path) →
      NoneNext (· != '\n') (more ++ rest'))
    (helse : t = .keyword .else_ → Piece.elifWidth? (more ++ rest') = none) :
    t.Ends last front (more ++ rest') := by
  have hword {p : Char → Bool} (hp : SparesNeutral p) (hnext : NoneNext p (more ++ rest)) :
      NoneNext p (more ++ rest') := hnext.neutral hrest hp
  cases t with
  | keyword k =>
    cases k with
    | else_ => exact ⟨hword (by decide) h.1, helse rfl⟩
    | _ => exact hword (by decide) h
  | name s | reference s | defineWord | calcWord => exact hword (by decide) h
  | hex value => exact hword (by decide) h
  | directive d path => exact hline h ⟨d, path, rfl⟩
  | text value => trivial
  | eof => exact h
  | number value =>
    obtain ⟨hdigits, hpoint, hzero, hsign⟩ := h
    refine ⟨hword (by decide) hdigits, fun hfront after hafter ↦ ?_,
      fun hfront ↦ hword (by decide) (hzero hfront), hsign⟩
    cases more with
    | nil =>
      obtain hc | hc | hc := hrest '.' (by rw [← List.nil_append rest', hafter]; rfl)
      all_goals exact absurd hc (by decide)
    | cons c more =>
      obtain ⟨rfl, rfl⟩ := List.cons.inj hafter
      exact (hpoint hfront _ rfl).neutral hrest (by decide)
  | punct p =>
    cases hspells
    obtain ⟨hread, hslash, hminus, hampersand⟩ := h
    exact ⟨Punct.read?_neutral p hread hrest, fun hp ↦ hword (by decide) (hslash hp),
      fun hp ↦ Piece.isSign_neutral (hminus hp) hrest, fun hp ↦ hword (by decide) (hampersand hp)⟩

/-- What starts like a word is not dropped. -/
theorem Gap.isWordStart_head {c : Char} (h : Gap rest (c :: front)) : isWordStart c = false := by
  cases h with
  | blank hblank =>
    simp only [isBlank, Bool.or_eq_true, beq_iff_eq] at hblank
    rcases hblank with (((rfl | rfl) | rfl) | rfl) | rfl <;> decide
  | line | block => decide

/-- What starts like a word is a word. -/
theorem Token.Ends.noneNext {c : Char} (h : t.Ends last (c :: front) rest)
    (hspells : Spells t (c :: front)) (hc : isWordStart c = true) : NoneNext isWordChar rest := by
  generalize hall : c :: front = all at hspells
  cases hspells with
  | @keyword k hk =>
    cases k with
    | else_ => exact h.1
    | _ => exact h
  | elif | name => exact h
  | punct p =>
    have hmark : p.spelling.toList.head?.any isWordStart = false := by cases p <;> decide
    rw [← hall, List.head?_cons, Option.any_some, hc] at hmark
    cases hmark
  | number hdecimal =>
    obtain ⟨d, more, hcons, hd⟩ := Piece.IsDecimal.exists_cons hdecimal
    rw [hcons] at hall
    cases hall
    rw [Piece.isDigit_eq_false hc] at hd
    cases hd
  | defineWord | calcWord | directive | negative | hex | text | reference =>
    cases hall
    exact absurd hc (by decide)

/-- The blanks and the `if` that would continue an `else` are not cut off in the middle of a
word. -/
theorem Pieces.not_if (hrest : ¬ NoneNext isWordChar rest) : ∀ {blanks : List Char}
    {last : Option Token} {offset : Nat}, (∀ c ∈ blanks, c = ' ' ∨ c = '\t') →
    ¬ Pieces rest last offset (blanks ++ ['i', 'f']) ts last' := by
  intro blanks
  induction blanks with
  | nil =>
    intro last offset _ h
    generalize htext : ([] : List Char) ++ ['i', 'f'] = text at h
    cases h with
    | done => cases htext
    | gap hgap =>
      obtain ⟨c, front, rfl⟩ := List.exists_cons_of_ne_nil hgap.ne_nil
      obtain ⟨rfl, -⟩ := List.cons.inj htext
      exact absurd hgap.isWordStart_head (by decide)
    | @token _ _ _ t front more ts hspells hends =>
      obtain ⟨c, front, rfl⟩ := List.exists_cons_of_ne_nil hspells.ne_nil
      obtain ⟨rfl, htail⟩ := List.cons.inj htext
      -- a token that starts with `i` is a word, and takes in the `f` and what is behind it
      have hnext := hends.noneNext hspells (by decide)
      cases front with
      | nil =>
        have htail : ['f'] = more := htail
        rw [← htail] at hnext
        exact absurd (noneNext_cons.1 hnext) (by decide)
      | cons d front =>
        obtain ⟨-, hnil⟩ := List.cons.inj htail
        obtain ⟨rfl, rfl⟩ := List.append_eq_nil_iff.1 hnil.symm
        exact hrest hnext
  | cons d blanks ih =>
    intro last offset hblanks h
    obtain ⟨hd, hblanks⟩ := List.forall_mem_cons.1 hblanks
    generalize htext : d :: blanks ++ ['i', 'f'] = text at h
    cases h with
    | done => cases htext
    | @gap _ _ _ front more _ hgap hmore =>
      obtain ⟨c, front, rfl⟩ := List.exists_cons_of_ne_nil hgap.ne_nil
      obtain ⟨rfl, htail⟩ := List.cons.inj htext
      cases hgap with
      | blank =>
        have htail : blanks ++ ['i', 'f'] = more := htail
        exact ih hblanks (htail ▸ hmore)
      | line | block => exact absurd hd (by decide)
    | token hspells hends =>
      obtain ⟨c, front, rfl⟩ := List.exists_cons_of_ne_nil hspells.ne_nil
      obtain ⟨rfl, -⟩ := List.cons.inj htext
      have hblank : isBlank d = true := by obtain rfl | rfl := hd <;> decide
      have hread := Piece.read_of_spells hspells hends
      rw [Piece.read, if_pos hblank] at hread
      cases hread

/-- An `else` is not continued by an `if` that was not there. -/
theorem Pieces.elifWidth? (h : Pieces rest last offset more ts last')
    (hnone : Piece.elifWidth? (more ++ rest) = none) (hrest : Neutral rest') :
    Piece.elifWidth? (more ++ rest') = none := by
  rw [Option.eq_none_iff_forall_ne_some]
  intro width hsome
  obtain ⟨blanks, after, hne, hblanks, hsplit, hafter, -⟩ := Piece.elifWidth?_eq_some.1 hsome
  -- nothing of the blanks and the `if` is in what comes behind
  obtain ⟨after', hmore, hbehind⟩ : ∃ after', more = blanks ++ ['i', 'f'] ++ after' ∧
      after = after' ++ rest' := by
    have hsplit' : more ++ rest' = blanks ++ ['i', 'f'] ++ after := by
      rw [hsplit, List.append_assoc]
      rfl
    obtain ⟨cut, hcut, htail⟩ | ⟨cut, hcut, htail⟩ := List.append_eq_append_iff.1 hsplit'
    · cases cut with
      | nil => exact ⟨[], by rw [List.append_nil, hcut, List.append_nil], htail.symm⟩
      | cons c cut =>
        have hmem : c ∈ blanks ++ ['i', 'f'] := by
          rw [hcut]
          exact List.mem_append_right _ List.mem_cons_self
        have hclass : ¬(c = '(' ∨ c = ')' ∨ c = '\n') := by
          rcases List.mem_append.1 hmem with hc | hc
          · obtain rfl | rfl := hblanks c hc <;> decide
          · obtain rfl | rfl : c = 'i' ∨ c = 'f' := by simpa using hc
            all_goals decide
        exact absurd (hrest c (by rw [htail]; rfl)) hclass
    · exact ⟨cut, hcut, htail⟩
  have hfound (hnext : NoneNext isWordChar (after' ++ rest)) : False := by
    have hsome' : Piece.elifWidth? (more ++ rest) = some (blanks.length + 2) := by
      refine Piece.elifWidth?_eq_some.2 ⟨blanks, after' ++ rest, hne, hblanks, ?_, hnext, rfl⟩
      simp [hmore]
    rw [hnone] at hsome'
    cases hsome'
  rw [hbehind] at hafter
  cases after' with
  | cons c after' => exact hfound hafter
  | nil =>
    rw [List.append_nil] at hmore
    exact Pieces.not_if hfound hblanks (hmore ▸ h)

/-- The part of a text in front of something neutral. A line comment or a path at its end must be
over there, too. -/
theorem Pieces.neutral (h : Pieces rest last offset text ts last') (hrest : Neutral rest')
    (hline : NoneNext (· != '\n') rest → NoneNext (· != '\n') rest') :
    Pieces rest' last offset text ts last' := by
  have hnext : ∀ {more}, NoneNext (· != '\n') (more ++ rest) →
      NoneNext (· != '\n') (more ++ rest') := by
    intro more hmore
    cases more with
    | nil => exact hline hmore
    | cons c more => exact hmore
  induction h with
  | done => exact .done
  | gap hgap _ ih =>
    refine .gap ?_ ih
    cases hgap with
    | blank hblank => exact .blank hblank
    | line hbody hend => exact .line hbody (hnext hend)
    | block hbody => exact .block hbody
  | token hspells hends hmore ih =>
    refine .token hspells (hends.neutral hspells hrest (fun h _ ↦ hnext h) ?_) ih
    rintro rfl
    exact hmore.elifWidth? hends.2 hrest

/-! ## A whole text

A text by itself ends, and so does its last piece. In front of a closing parenthesis the last
piece ends as well, unless it is a line comment. -/

/-- The text ends in a line comment: what is in front of the two slashes can be cut into tokens, so
they stand in no text literal and in no block comment. -/
def EndsInLineComment (text : String) : Prop :=
  ∃ front body ts, text.toList = front ++ '/' :: '/' :: body ∧ '\n' ∉ body ∧
    lex (String.ofList front) = .ok ts

theorem Pieces.line_or_close (h : Pieces [] last offset text ts last')
    (hdirective : ∀ l ∈ ts, ∀ d path, l.token ≠ .directive d path) :
    (∃ front body ts' last'', text = front ++ '/' :: '/' :: body ∧ '\n' ∉ body ∧
      Pieces ('/' :: '/' :: body) last offset front ts' last'') ∨
    ∀ rest, Pieces (')' :: rest) last offset text ts last' := by
  induction h with
  | done => exact .inr fun rest ↦ .done
  | @gap last last' offset front more ts hgap hmore ih =>
    obtain ⟨front', body, ts', last'', rfl, hbody, hpieces⟩ | hclose := ih hdirective
    · refine .inl ⟨front ++ front', body, ts', last'', by rw [List.append_assoc], hbody,
        .gap ?_ hpieces⟩
      rwa [List.append_nil] at hgap
    · cases hgap with
      | blank hblank => exact .inr fun rest ↦ .gap (.blank hblank) (hclose rest)
      | block hbody => exact .inr fun rest ↦ .gap (.block hbody) (hclose rest)
      | @line body hbody hend =>
        cases more with
        | nil => exact .inl ⟨[], body, [], last, by rw [List.append_nil]; rfl, hbody, .done⟩
        | cons c more => exact .inr fun rest ↦ .gap (.line hbody hend) (hclose rest)
  | @token last last' offset t front more ts hspells hends hmore ih =>
    obtain ⟨hfirst, hothers⟩ := List.forall_mem_cons.1 hdirective
    obtain ⟨front', body, ts', last'', rfl, hbody, hpieces⟩ | hclose := ih hothers
    · refine .inl ⟨front ++ front', body, _, last'', by rw [List.append_assoc], hbody,
        .token hspells ?_ hpieces⟩
      rwa [List.append_nil] at hends
    · refine .inr fun rest ↦ .token hspells (hends.neutral hspells (neutral_closeParen rest) ?_ ?_)
        (hclose rest)
      · rintro - ⟨d, path, rfl⟩
        exact absurd rfl (hfirst d path)
      · rintro rfl
        exact hmore.elifWidth? hends.2 (neutral_closeParen rest)

/-- A text that does not end in a line comment reads alike between parentheses. -/
theorem Lexes.between_parens {source : String} {inner : List Lexeme} {stop : Span}
    (h : Lexes none 0 source.toList (inner ++ [⟨.eof, stop⟩]))
    (hinner : ∀ l ∈ inner, l.token ≠ .eof ∧ ∀ d path, l.token ≠ .directive d path)
    (hline : ¬ EndsInLineComment source) (offset : Nat) (rest : List Char) :
    ∃ last', Pieces (')' :: rest) (some (.punct .openParen)) offset source.toList
      (inner.map (Lexeme.rebase 0 offset)) last' := by
  have hmoved : ∀ l ∈ inner.map (Lexeme.rebase 0 offset),
      l.token ≠ .eof ∧ ∀ d path, l.token ≠ .directive d path := by
    simpa [Lexeme.rebase] using hinner
  have hthere : Lexes (some (.punct .openParen)) offset source.toList
      (inner.map (Lexeme.rebase 0 offset) ++ [⟨.eof, stop.rebase 0 offset⟩]) := by
    have hrebase : Lexes (some (.punct .openParen)) offset source.toList _ :=
      h.rebase 0 offset le_rfl (Nat.zero_add _).symm rfl
    rwa [List.map_append] at hrebase
  obtain ⟨last', hpieces⟩ := hthere.pieces (fun l hl ↦ (hmoved l hl).1) rfl
  refine ⟨last', ?_⟩
  obtain ⟨front, body, ts, last'', htext, hbody, hfront⟩ | hclose :=
    hpieces.line_or_close fun l hl ↦ (hmoved l hl).2
  · have hlexes := (hfront.neutral neutral_nil fun _ ↦ noneNext_nil _).lexes .done
    rw [List.append_nil] at hlexes
    have hback : Lexes none 0 front _ := hlexes.rebase offset 0 le_rfl (Nat.sub_self _).symm rfl
    rw [← @String.toList_ofList front] at hback
    exact absurd ⟨front, body, _, htext, hbody, lex_eq_ok_iff.2 hback⟩ hline
  · exact hclose rest

/-! ## In place of a name -/

/-- The source with a text in the place of what the span covers. -/
def replacedAt (source : String) (span : Span) (text : String) : String :=
  Span.slice source ⟨0, span.start⟩ ++ text ++ Span.slice source ⟨span.stop, source.utf8ByteSize⟩

theorem toList_replacedAt {source : String} {before spelled after : List Char}
    (h : source.toList = before ++ (spelled ++ after)) (text : String) :
    (replacedAt source ⟨byteLength before, byteLength before + byteLength spelled⟩ text).toList
      = before ++ (text.toList ++ after) := by
  have hbefore : (Span.slice source ⟨0, byteLength before⟩).toList = before := between_zero h
  have hafter : (Span.slice source ⟨byteLength before + byteLength spelled,
      source.utf8ByteSize⟩).toList = after := by
    rw [← byteLength_append]
    exact between_end (by rw [h, List.append_assoc])
  simp only [replacedAt, String.toList_append, hbefore, hafter, List.append_assoc]

/-- The source with a text in parentheses in place of what the span covers. -/
def inlinedAt (source : String) (span : Span) (text : String) : String :=
  Span.slice source ⟨0, span.start⟩ ++ "(" ++ text ++ ")" ++
    Span.slice source ⟨span.stop, source.utf8ByteSize⟩

theorem inlinedAt_eq_replacedAt (source : String) (span : Span) (text : String) :
    inlinedAt source span text = replacedAt source span ("(" ++ text ++ ")") := by
  simp only [inlinedAt, replacedAt, String.append_assoc]

theorem toList_inlinedAt {source text : String} {before spelled after : List Char}
    (h : source.toList = before ++ (spelled ++ after)) :
    (inlinedAt source ⟨byteLength before, byteLength before + byteLength spelled⟩ text).toList
      = before ++ '(' :: (text.toList ++ ')' :: after) := by
  rw [inlinedAt_eq_replacedAt, toList_replacedAt h]
  simp

/-- In front of a space every mark goes no further. -/
theorem Punct.ends_space (p : Punct) (rest : List Char) :
    Token.Ends last p.spelling.toList (' ' :: rest) (.punct p) := by
  refine ⟨?_, fun _ ↦ rfl, fun _ ↦ rfl, fun _ ↦ rfl⟩
  rw [Punct.read?_take]
  cases p <;> rfl

theorem ends_openParen (rest : List Char) : Token.Ends last ['('] rest (.punct .openParen) := by
  refine ⟨?_, nofun, nofun, nofun⟩
  rw [Punct.read?_take]
  cases rest <;> simp [Punct.read?, Punct.all, Punct.spelling, List.isPrefixOf]

theorem ends_closeParen (rest : List Char) : Token.Ends last [')'] rest (.punct .closeParen) := by
  refine ⟨?_, nofun, nofun, nofun⟩
  rw [Punct.read?_take]
  cases rest <;> simp [Punct.read?, Punct.all, Punct.spelling, List.isPrefixOf]

/-- Once a name has given way to a text in parentheses, what is in front of the name stays, and what
is behind it moves along. -/
theorem lex_inlinedAt {source text s : String} {span stop : Span} {front inner back : List Lexeme}
    (hlex : lex source = .ok (front ++ ⟨.name s, span⟩ :: back))
    (htext : lex text = .ok (inner ++ [⟨.eof, stop⟩]))
    (hinner : ∀ l ∈ inner, l.token ≠ .eof ∧ ∀ d path, l.token ≠ .directive d path)
    (hline : ¬ EndsInLineComment text) :
    lex (inlinedAt source span text) = .ok (front ++
      ⟨.punct .openParen, ⟨span.start, span.start + 1⟩⟩ ::
      (inner.map (Lexeme.rebase 0 (span.start + 1)) ++
        ⟨.punct .closeParen, ⟨span.start + 1 + text.utf8ByteSize,
          span.start + 2 + text.utf8ByteSize⟩⟩ ::
        back.map (Lexeme.rebase span.stop (span.start + 2 + text.utf8ByteSize)))) := by
  obtain ⟨before, spelled, after, last, hsource, hfront, hspells, hends, hspan, hback⟩ :=
    (lex_eq_ok_iff.1 hlex).exists_token (l := ⟨.name s, span⟩) nofun rfl
  rw [Nat.zero_add] at hspan hback
  dsimp only at hspan hspells
  subst hspan
  generalize ha : byteLength before = a at hback ⊢
  cases hspells with
  | name hname =>
  rw [lex_eq_ok_iff, ← ha, toList_inlinedAt hsource, ha, utf8ByteSize_eq_byteLength]
  -- the name does not end a line, so no line comment stops in front of it
  have hnewline : ¬ NoneNext (· != '\n') (s.toList ++ after) := by
    intro hnext
    have hstart := hname.start
    cases hs : s.toList with
    | nil =>
      rw [hs] at hstart
      cases hstart
    | cons c cs =>
      rw [hs, List.cons_append, noneNext_cons, bne_eq_false_iff_eq] at hnext
      rw [hs, hnext, List.head?_cons, Option.any_some] at hstart
      exact absurd hstart (by decide)
  have hafter : Lexes (some (.punct .closeParen)) (a + 2 + byteLength text.toList) after
      (back.map (Lexeme.rebase (a + byteLength s.toList) (a + 2 + byteLength text.toList))) := by
    refine hback.rebase _ _ le_rfl ?_ rfl
    rw [CharacterScript.rebase, Nat.sub_self, Nat.zero_add]
  have hone : a + 1 + byteLength text.toList + byteLength [')'] =
      a + 2 + byteLength text.toList := by
    rw [show byteLength [')'] = 1 from rfl]
    omega
  obtain ⟨last', hinside⟩ :=
    (lex_eq_ok_iff.1 htext).between_parens hinner hline (a + 1) after
  have hclose : Lexes last' (a + 1 + byteLength text.toList) ([')'] ++ after) _ :=
    .token (.punct .closeParen) (ends_closeParen after) (hone ▸ hafter)
  have hopen : Lexes last a (['('] ++ (text.toList ++ ([')'] ++ after))) _ :=
    .token (.punct .openParen) (ends_openParen _) (hinside.lexes hclose)
  have hall := (hfront.neutral (neutral_openParen _) fun hnext ↦ absurd hnext hnewline).lexes
    (by rw [Nat.zero_add, ha]; exact hopen)
  rw [hone] at hall
  exact hall

end CharacterScript
