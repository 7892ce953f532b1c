import CharacterScript.Proofs.Lexing.InFront
import CharacterScript.Proofs.Relocation.Captured
import CharacterScript.Proofs.Relocation.Stretches

/-!
# A comment with a space in its place

A `SkippedComment` is a comment that the lexer comes to between two pieces of a text, wherever that
is; what stands behind it need not even be a text of tokens. `SkippedComment.result` has a space in
its place, with the line feeds of the comment.

## The same tokens

The same tokens are found in both texts, those behind the comment moved along
(`SkippedComment.lex_cases`). There is one exception. An `else` takes in an `if` behind spaces on
its line, and a comment between the two is what keeps them apart (`SkippedComment.PartsElseIf`).

## Why a space

A comment ends the token in front of it as any blank does. With nothing in its place two names
could become one; with a space they stay two. The line feeds stay because a path directive ends at
one, because lines are counted, and because an `else` does not reach over one.
-/

namespace CharacterScript

variable {last last' : Option Token} {t : Token} {offset : Nat}
variable {front text x x' : List Char} {ts : List Lexeme}

/-! ## In front of a space

A token that ends in front of the comment has to end in front of a space. Every form of token
does, with the one exception that is named here. -/

/-- A token in front of a slash goes no further in front of a space, unless an `else` does. -/
theorem Token.Ends.space (h : t.Ends last front ('/' :: x)) (hspells : Spells t front)
    (helse : t = .keyword .else_ → Piece.elifWidth? (' ' :: x') = none) :
    t.Ends last front (' ' :: x') := by
  cases t with
  | keyword k =>
    cases k with
    | else_ => exact ⟨rfl, helse rfl⟩
    | _ => exact rfl
  | name | reference | defineWord | calcWord | hex => exact rfl
  | directive => exact absurd h (by simp [Token.Ends])
  | number value =>
    refine ⟨rfl, fun _ more heq ↦ ?_, fun _ ↦ rfl, h.2.2.2⟩
    cases heq
  | punct p =>
    cases hspells
    exact p.ends_space x'
  | text => trivial
  | eof => exact h

/-- An `else` in front of a slash, with blanks between them, goes on in front of a space. -/
def ElseGoesOn (last : Option Token) (offset : Nat) (text x x' : List Char) : Prop :=
  ∃ before blanks ts last', text = before ++ ("else".toList ++ blanks) ∧
    Pieces ("else".toList ++ (blanks ++ '/' :: x)) last offset before ts last' ∧
    (∀ c ∈ blanks, c = ' ' ∨ c = '\t') ∧ Piece.elifWidth? (blanks ++ ' ' :: x') ≠ none

/-- Nothing but blanks is between an `else` and what makes it go on behind a slash that was
there. -/
theorem Piece.elifWidth?_space {more : List Char} (h : elifWidth? (more ++ '/' :: x) = none)
    (hsome : elifWidth? (more ++ ' ' :: x') ≠ none) : ∀ c ∈ more, c = ' ' ∨ c = '\t' := by
  obtain ⟨width, hwidth⟩ := Option.ne_none_iff_exists'.1 hsome
  obtain ⟨blanks, after, hne, hblanks, hsplit, hafter, -⟩ := elifWidth?_eq_some.1 hwidth
  obtain ⟨cut, rfl, -⟩ | ⟨cut, rfl, hcut⟩ := List.append_eq_append_iff.1 hsplit
  · exact fun c hc ↦ hblanks c (List.mem_append_left _ hc)
  · -- the `if` starts in front of the slash, so it is all there
    exfalso
    rcases cut with _ | ⟨d, _ | ⟨e, cut⟩⟩
    · cases hcut
    · obtain ⟨-, hcut⟩ := List.cons.inj hcut
      cases hcut
    · obtain ⟨rfl, htail⟩ := List.cons.inj hcut
      obtain ⟨rfl, rfl⟩ : 'f' = e ∧ after = cut ++ ' ' :: x' := List.cons.inj htail
      have hfound : elifWidth? (blanks ++ 'i' :: 'f' :: cut ++ '/' :: x) =
          some (blanks.length + 2) := by
        refine elifWidth?_eq_some.2 ⟨blanks, cut ++ '/' :: x, hne, hblanks, by simp, ?_, rfl⟩
        cases cut <;> exact hafter
      rw [h] at hfound
      cases hfound

/-- What stands in front of a slash is made of the same pieces in front of a space. -/
theorem Pieces.space (h : Pieces ('/' :: x) last offset text ts last')
    (helse : ¬ ElseGoesOn last offset text x x') :
      Pieces (' ' :: x') last offset text ts last' := by
  induction h with
  | done => exact .done
  | @gap _ _ _ front more _ hgap _ ih =>
    refine .gap ?_ (ih ?_)
    · cases hgap with
      | blank hblank => exact .blank hblank
      | block hbody => exact .block hbody
      | line hbody hline =>
        refine .line hbody ?_
        -- a line comment would have taken in the slash
        cases more with
        | nil => exact absurd hline (by simp)
        | cons c more => exact hline
    · rintro ⟨before, blanks, ts, last', rfl, hpieces, hblanks, hsome⟩
      refine helse ⟨front ++ before, blanks, ts, last', by simp, .gap ?_ hpieces, hblanks, hsome⟩
      simpa using hgap
  -- only an `else` looks further than to the next character
  | @token last _ offset t front more _ hspells hends _ ih =>
    refine .token hspells ?_ (ih ?_)
    · have hnext : t = .keyword .else_ → Piece.elifWidth? (more ++ ' ' :: x') = none := by
        rintro rfl
        by_contra hsome
        obtain rfl : front = "else".toList := by
          cases hspells
          rfl
        exact helse ⟨[], more, [], last, rfl, .done, Piece.elifWidth?_space hends.2 hsome, hsome⟩
      cases more with
      | nil => exact hends.space hspells hnext
      | cons c more =>
        refine hends.of_head hspells.ne_nil (fun _ hdigit ↦ ?_) fun helse _ ↦ hnext helse
        cases more with
        | nil => rfl
        | cons d more => exact hdigit
    · rintro ⟨before, blanks, ts, last', rfl, hpieces, hblanks, hsome⟩
      refine helse ⟨front ++ before, blanks, _, last', by simp, .token hspells ?_ hpieces,
        hblanks, hsome⟩
      simpa using hends

/-- Blanks are pieces of their own. -/
theorem pieces_of_blanks {blanks rest : List Char} (h : ∀ c ∈ blanks, isBlank c = true)
    (last : Option Token) (offset : Nat) : Pieces rest last offset blanks [] last := by
  induction blanks generalizing offset with
  | nil => exact .done
  | cons c blanks ih =>
    obtain ⟨hc, hblanks⟩ := List.forall_mem_cons.1 h
    exact .gap (.blank hc) (ih hblanks _)

/-! ## Comments

The comment is given by the three parts of the text, so places in front of it, in it and behind it
are told apart by lengths. -/

/-- A comment that the lexer skips: it comes to the comment between two pieces of the text. -/
structure SkippedComment (source : String) where
  /-- What stands in front of the comment. -/
  front : List Char
  /-- The comment as it is written. -/
  comment : List Char
  /-- What stands behind the comment. -/
  back : List Char
  /-- The three make up the text. -/
  source_eq : source.toList = front ++ (comment ++ back)
  /-- The lexer reads what is in front and comes to the comment. -/
  pieces : ∃ ts last, Pieces (comment ++ back) none 0 front ts last
  /-- The comment is skipped. -/
  gap : Gap back comment
  /-- It is a comment, not blanks. -/
  head_eq : comment.head? = some '/'

namespace SkippedComment

variable {source : String} (C : SkippedComment source)

/-- What is put in the place of the comment: a space, and the line feeds of the comment. -/
def blank : List Char :=
  ' ' :: C.comment.filter (· == '\n')

/-- The text with a space in the place of the comment. -/
def result : String :=
  String.ofList (C.front ++ (C.blank ++ C.back))

/-- Nothing but the comment and blanks keeps an `else` apart from an `if` on its line. -/
def PartsElseIf : Prop :=
  ∃ before blanks ts last, C.front = before ++ ("else".toList ++ blanks) ∧
    Pieces ("else".toList ++ (blanks ++ (C.comment ++ C.back))) none 0 before ts last ∧
    (∀ c ∈ blanks, c = ' ' ∨ c = '\t') ∧ Piece.elifWidth? (blanks ++ (C.blank ++ C.back)) ≠ none

theorem not_partsElseIf (h : ¬ "else".toList <:+: C.front) : ¬ C.PartsElseIf := by
  rintro ⟨before, blanks, ts, last, hfront, -⟩
  exact h ⟨before, blanks, by rw [hfront, List.append_assoc]⟩

/-- The lexer skips a comment that it comes to behind a token and blanks. -/
theorem exists_behind {ts : List Lexeme} (hlex : lex source = .ok ts) {l : Lexeme} (hl : l ∈ ts)
    (heof : l.token ≠ .eof) {front blanks comment back : List Char}
    (hsource : source.toList = front ++ (blanks ++ (comment ++ back)))
    (hstop : l.span.stop = byteLength front) (hblanks : ∀ c ∈ blanks, isBlank c = true)
    (hgap : Gap back comment) (hhead : comment.head? = some '/') :
    ∃ C : SkippedComment source, C.front = front ++ blanks ∧ C.comment = comment ∧
      C.back = back := by
  obtain ⟨before, after, rfl⟩ := List.append_of_mem hl
  obtain ⟨front', rest, hcut, hpieces, hwidth, -⟩ := (lex_eq_ok_iff.1 hlex).exists_pieces heof
  rw [Nat.zero_add, hstop] at hwidth
  obtain rfl : front' = front := by
    rw [← between_zero hcut, ← hwidth, between_zero hsource]
  obtain rfl : rest = blanks ++ (comment ++ back) :=
    List.append_cancel_left (hcut.symm.trans hsource)
  exact ⟨⟨front' ++ blanks, comment, back, by rw [hsource, List.append_assoc],
    ⟨_, _, hpieces.append (pieces_of_blanks hblanks _ _)⟩, hgap, hhead⟩, rfl, rfl, rfl⟩

/-! ### Places -/

def start : Nat :=
  byteLength C.front

def stop : Nat :=
  byteLength C.front + byteLength C.comment

/-- Where what is behind the comment starts in the new text. -/
def resume : Nat :=
  byteLength C.front + byteLength C.blank

/-- Where an offset goes. -/
def shifted (x : Nat) : Nat :=
  shift C.start C.stop C.resume x

def edit : Edit :=
  .plain (Span.map C.shifted)

/-- Where an offset came from. -/
def unshifted (x : Nat) : Nat :=
  shift C.start C.resume C.stop x

def restore : Edit :=
  .plain (Span.map C.unshifted)

theorem result_eq : C.result.toList = C.front ++ (C.blank ++ C.back) :=
  String.toList_ofList

theorem exists_comment : ∃ rest, C.comment = '/' :: rest := by
  obtain ⟨c, rest, hcomment⟩ := List.exists_cons_of_ne_nil C.gap.ne_nil
  have hhead := C.head_eq
  rw [hcomment, List.head?_cons, Option.some.injEq] at hhead
  exact ⟨rest, hhead ▸ hcomment⟩

theorem start_lt_stop : C.start < C.stop := by
  obtain ⟨rest, hcomment⟩ := C.exists_comment
  rw [start, stop, hcomment, byteLength_cons]
  have hpos := '/'.utf8Size_pos
  omega

theorem start_lt_resume : C.start < C.resume := by
  rw [start, resume, blank, byteLength_cons]
  have hpos := ' '.utf8Size_pos
  omega

theorem monotone_shifted : Monotone C.shifted :=
  monotone_shift C.start_lt_resume.le

theorem shifted_front {x : Nat} (h : x ≤ C.start) : C.shifted x = x :=
  shift_of_le h

theorem shifted_back {x : Nat} (h : C.stop ≤ x) : C.shifted x = rebase C.stop C.resume x :=
  shift_of_ge C.start_lt_stop h

/-- The offset is not within the comment. -/
def Beside (x : Nat) : Prop :=
  x ≤ C.start ∨ C.stop ≤ x

theorem unshifted_shifted {x : Nat} (h : C.Beside x) : C.unshifted (C.shifted x) = x := by
  rw [unshifted]
  obtain hfront | hback := h
  · rw [C.shifted_front hfront, shift_of_le hfront]
  · rw [C.shifted_back hback, shift_of_ge C.start_lt_resume (by rw [rebase]; omega)]
    simp only [rebase]
    omega

/-! ### Tokens -/

/-- A lexeme in front of the comment or behind it. -/
def Clear (l : Lexeme) : Prop :=
  l.span.stop ≤ C.start ∨ C.stop ≤ l.span.start

theorem blank_isBlank : ∀ c ∈ C.blank, isBlank c = true := by
  intro c hc
  obtain rfl | hc := List.mem_cons.1 hc
  · rfl
  · rw [eq_of_beq (List.mem_filter.1 hc).2]
    rfl

/-- The walk over both texts is the same up to the comment, and goes on behind it. -/
theorem exists_walks (helse : ¬ C.PartsElseIf) : ∃ ts,
    Pieces (C.comment ++ C.back) none 0 C.front ts ((ts.reverse).head?.map (·.token)) ∧
    lex source = lexFrom C.stop 0 ts.reverse C.back ∧
    lex C.result = lexFrom C.resume 0 ts.reverse C.back := by
  obtain ⟨ts, last, hfront⟩ := C.pieces
  obtain ⟨rest, hcomment⟩ := C.exists_comment
  have hspace : Pieces (C.blank ++ C.back) none 0 C.front ts last := by
    rw [hcomment] at hfront
    refine Pieces.space hfront ?_
    rintro ⟨before, blanks, ts, last, heq, hpieces, hblanks, hsome⟩
    exact helse ⟨before, blanks, ts, last, heq, by rwa [hcomment], hblanks, hsome⟩
  obtain ⟨hwalk, hlast⟩ := hfront.lexFrom_eq [] rfl
  obtain ⟨hwalk', -⟩ := hspace.lexFrom_eq [] rfl
  have hblank : Pieces C.back last C.start C.blank [] last := pieces_of_blanks C.blank_isBlank _ _
  have hgap : Pieces C.back last C.start (C.comment ++ []) [] last :=
    .gap (by rw [List.nil_append]; exact C.gap) .done
  rw [List.append_nil] at hgap hwalk hwalk' hlast
  obtain ⟨hover, -⟩ := hgap.lexFrom_eq _ hlast
  obtain ⟨hover', -⟩ := hblank.lexFrom_eq _ hlast
  rw [Nat.zero_add] at hwalk hwalk'
  refine ⟨ts, hlast ▸ hfront, ?_, ?_⟩
  · rw [lex, C.source_eq, hwalk]
    exact hover
  · rw [lex, C.result_eq, hwalk']
    exact hover'

theorem start_le_of_lexes {text : List Char} (h : Lexes last offset text ts) :
    ∀ l ∈ ts, offset ≤ l.span.start ∧ l.span.start ≤ l.span.stop := by
  induction h with
  | done => simp
  | gap _ _ ih =>
    intro l hl
    have hle := ih l hl
    omega
  | token _ _ _ ih =>
    intro l hl
    obtain rfl | hl := List.mem_cons.1 hl
    · exact ⟨le_rfl, Nat.le_add_right _ _⟩
    · have hle := ih l hl
      omega

theorem stop_le_of_pieces {rest text : List Char} (h : Pieces rest last offset text ts last') :
    ∀ l ∈ ts, l.span.start ≤ l.span.stop ∧ l.span.stop ≤ offset + byteLength text := by
  induction h with
  | done => simp
  | gap _ _ ih =>
    intro l hl
    have hle := ih l hl
    rw [byteLength_append]
    omega
  | token _ _ _ ih =>
    intro l hl
    rw [byteLength_append]
    obtain rfl | hl := List.mem_cons.1 hl
    · dsimp only
      omega
    · have hle := ih l hl
      omega

/-- The same tokens are found, those behind the comment moved along, or there is an error in both
texts. -/
theorem lex_cases (helse : ¬ C.PartsElseIf) :
    (∃ ts, lex source = .ok ts ∧ lex C.result = .ok (ts.map C.edit.lexeme) ∧
      ∀ l ∈ ts, C.Clear l ∧ l.span.start ≤ l.span.stop) ∨
    ∃ e e', lex source = .error e ∧ lex C.result = .error e' := by
  obtain ⟨ts, hfront, hsource, hresult⟩ := C.exists_walks helse
  -- what is behind the comment is read alike from wherever it starts
  have hmove : ∀ {a b : Nat} {new : List Lexeme},
      Lexes ((ts.reverse).head?.map (·.token)) a C.back new →
      lexFrom b 0 ts.reverse C.back = .ok (ts ++ new.map (Lexeme.rebase a b)) := by
    intro a b new hnew
    have hthere : Lexes ((ts.reverse).head?.map (·.token)) b C.back _ :=
      hnew.rebase a b le_rfl (by rw [rebase]; omega) rfl
    rw [hthere.lexFrom_eq _ rfl, List.reverse_reverse]
  cases hlex : lexFrom C.stop 0 ts.reverse C.back with
  | ok all =>
    obtain ⟨new, rfl, hnew⟩ := lexes_of_lexFrom _ hlex
    rw [List.reverse_reverse] at hlex
    have hthere := hmove (b := C.resume) hnew
    have hstops := stop_le_of_pieces hfront
    have hstarts := start_le_of_lexes hnew
    rw [Nat.zero_add] at hstops
    refine .inl ⟨_, hsource.trans hlex, ?_, fun l hl ↦ ?_⟩
    · rw [hresult, hthere, List.map_append]
      congr 2
      · refine (List.map_id _).symm.trans (List.map_congr_left fun l hl ↦ ?_)
        obtain ⟨hle, hstop⟩ := hstops l hl
        show l = ⟨l.token, ⟨C.shifted l.span.start, C.shifted l.span.stop⟩⟩
        rw [C.shifted_front (hle.trans hstop), C.shifted_front hstop]
      · refine List.map_congr_left fun l hl ↦ ?_
        obtain ⟨hstart, hle⟩ := hstarts l hl
        show (⟨l.token, _⟩ : Lexeme) = ⟨l.token, ⟨C.shifted l.span.start, C.shifted l.span.stop⟩⟩
        rw [C.shifted_back hstart, C.shifted_back (hstart.trans hle)]
        rfl
    · obtain hl | hl := List.mem_append.1 hl
      · exact ⟨.inl (hstops l hl).2, (hstops l hl).1⟩
      · exact ⟨.inr (hstarts l hl).1, (hstarts l hl).2⟩
  | error e =>
    refine .inr ?_
    cases hlex' : lexFrom C.resume 0 ts.reverse C.back with
    | ok all =>
      obtain ⟨new, -, hnew⟩ := lexes_of_lexFrom _ hlex'
      rw [hmove hnew] at hlex
      cases hlex
    | error e' => exact ⟨e, e', hsource.trans hlex, hresult.trans hlex'⟩

end SkippedComment

end CharacterScript
