import CharacterScript.Proofs.Lexing.Walk
import Mathlib.Data.String.Basic

/-!
# Tokens and gaps make up the text

Nothing of a text is lost when it is cut into tokens: what stands at the place of a token spells it,
and what stands between two tokens is made of blanks and comments. `Tokenized` says this with places
alone, that is with offsets in bytes and what is found there, so it needs no knowledge of how the
text was walked over.

## Along the text

The proof follows `Lexes` from the front of the text to its end and keeps apart what was read before
the last token stopped, the gap since then, and what is still to come (`Lexes.tiles`).

## What it says of the lexer

Read from front to back the tokens and the gaps between them are the text, so no character is lost
and none is read twice. Each token is written in a way that such a token is written, and reaches
as far as it can. What looks like a comment inside of a text literal belongs to the literal, since
the literal is what stands there.
-/

namespace CharacterScript

/-! ## Places in bytes

The text between two offsets is found by characters that are there in full. Offsets inside of a
character name no text. -/

/-- The text from one byte up to another. -/
def between (source : String) (lo hi : Nat) : List Char :=
  (Span.slice source ⟨lo, hi⟩).toList

theorem byteLength_eq_utf8Len (cs : List Char) : byteLength cs = String.utf8Len cs := by
  induction cs with
  | nil => rfl
  | cons c cs ih => rw [byteLength_cons, String.utf8Len_cons, ih, Nat.add_comm]

section

variable {source : String} {before mid after : List Char}

theorem utf8ByteSize_eq_byteLength (source : String) :
    source.utf8ByteSize = byteLength source.toList := by
  rw [byteLength_eq_utf8Len, ← String.utf8ByteSize_ofList, String.ofList_toList]

theorem between_eq (h : source.toList = before ++ (mid ++ after)) :
    between source (byteLength before) (byteLength before + byteLength mid) = mid := by
  have hsource : source = String.ofList (before ++ mid ++ after) := by
    rw [List.append_assoc, ← h, String.ofList_toList]
  rw [between, Span.slice, hsource, byteLength_eq_utf8Len, byteLength_eq_utf8Len,
    String.extract_of_valid, String.toList_ofList]

/-- The text in front of a place. -/
theorem between_zero (h : source.toList = before ++ after) :
    between source 0 (byteLength before) = before := by
  have hbetween := @between_eq source [] before after h
  rwa [show byteLength [] = 0 from rfl, Nat.zero_add] at hbetween

theorem between_end (h : source.toList = before ++ after) :
    between source (byteLength before) source.utf8ByteSize = after := by
  have hsize : source.utf8ByteSize = byteLength before + byteLength after := by
    rw [utf8ByteSize_eq_byteLength, h, byteLength_append]
  have hsource : source.toList = before ++ (after ++ []) := by rw [h, List.append_nil]
  rw [hsize]
  exact between_eq hsource

/-- The end of a part of a text lies on a boundary between characters. -/
theorem isValid_byteLength (h : source.toList = before ++ after) :
    String.Pos.Raw.IsValid source ⟨byteLength before⟩ := by
  refine String.Pos.Raw.isValid_iff_exists_append.2
    ⟨String.ofList before, String.ofList after, ?_, ?_⟩
  · rw [← String.ofList_append, ← h, String.ofList_toList]
  · rw [String.rawEndPos_ofList, byteLength_eq_utf8Len]

end

/-! ## What is between tokens -/

/-- Blanks and comments one behind the other, with `rest` behind them. -/
inductive Gaps (rest : List Char) : List Char → Prop
  | nil : Gaps rest []
  | cons {front more : List Char} (hgap : Gap (more ++ rest) front) (hmore : Gaps rest more) :
    Gaps rest (front ++ more)

theorem Gaps.concat {gaps front rest : List Char} (h : Gaps (front ++ rest) gaps)
    (hgap : Gap rest front) : Gaps rest (gaps ++ front) := by
  induction h with
  | nil =>
    rw [List.nil_append, ← List.append_nil front]
    exact .cons (by rwa [List.nil_append]) .nil
  | cons hfirst _ ih =>
    rw [List.append_assoc]
    exact .cons (by rwa [List.append_assoc]) ih

/-! ## A text and its tokens -/

/-- The tokens of a text are all there is in it. -/
structure Tokenized (source : String) (ts : List Lexeme) : Prop where
  /-- The last token marks the end of the text, and all others take up some of it. -/
  ends : ∃ front, ts = front ++ [⟨.eof, ⟨source.utf8ByteSize, source.utf8ByteSize⟩⟩] ∧
    ∀ t ∈ front, t.token ≠ .eof ∧ t.span.start < t.span.stop
  /-- No character is cut. -/
  boundaries : ∀ t ∈ ts, String.Pos.Raw.IsValid source ⟨t.span.start⟩ ∧
    String.Pos.Raw.IsValid source ⟨t.span.stop⟩
  /-- The tokens come one behind the other. -/
  increasing : ts.Pairwise fun a b ↦ a.span.start < b.span.start ∧ a.span.stop ≤ b.span.start
  /-- There are only blanks and comments in front of the first token. -/
  first : ∀ t, ts.head? = some t →
    Gaps (between source t.span.start source.utf8ByteSize) (between source 0 t.span.start)
  /-- There are only blanks and comments between two tokens. -/
  gaps : ∀ a b, [a, b] <:+: ts → Gaps (between source b.span.start source.utf8ByteSize)
    (between source a.span.stop b.span.start)
  /-- At its place a token is written as such tokens are. -/
  spelled : ∀ t ∈ ts, t.token ≠ .eof →
    Spells t.token (between source t.span.start t.span.stop)
  /-- A sign is part of a number unless the token before it ends an operand. -/
  signs : ∀ front t rest, ts = front ++ t :: rest →
    (∀ value, t.token = .number value →
      (between source t.span.start t.span.stop).head? = some '-' →
      front.getLast?.any (·.token.endsOperand) = false) ∧
    (t.token = .punct .minus →
      (between source t.span.stop source.utf8ByteSize).head?.any Char.isDigit = true →
      front.getLast?.any (·.token.endsOperand) = true)

/-! ## Along the text

`Tiles` is what is left to be said behind a token. It is a recursion on the list of tokens, so
each of the statements about pairs of neighbours is an induction on it. -/

/-- A token at its place, with nothing but gaps between it and byte `lo`. -/
structure Lexeme.Stands (source : String) (lo : Nat) (t : Lexeme) : Prop where
  /-- It starts at byte `lo` or behind it. -/
  le_start : lo ≤ t.span.start
  /-- It starts between two characters. -/
  start : String.Pos.Raw.IsValid source ⟨t.span.start⟩
  /-- It ends between two characters. -/
  stop : String.Pos.Raw.IsValid source ⟨t.span.stop⟩
  /-- What is in between is made of blanks and comments. -/
  gaps : Gaps (between source t.span.start source.utf8ByteSize) (between source lo t.span.start)

/-- A token that is written in the text, behind the token `last`. -/
structure Lexeme.Written (source : String) (last : Option Token) (t : Lexeme) : Prop where
  /-- It is not the end mark. -/
  ne_eof : t.token ≠ .eof
  /-- It takes up some bytes. -/
  start_lt_stop : t.span.start < t.span.stop
  /-- It is written as such tokens are. -/
  spells : Spells t.token (between source t.span.start t.span.stop)
  /-- It reaches as far as a token of its kind can, and may stand behind `last`. -/
  ends : t.token.Ends last (between source t.span.start t.span.stop)
    (between source t.span.stop source.utf8ByteSize)

/-- From byte `lo` on, behind the token `last`, the text is what these tokens say. -/
def Tiles (source : String) (lo : Nat) (last : Option Token) : List Lexeme → Prop
  | [] => False
  | t :: ts => t.Stands source lo ∧
    (t = ⟨.eof, ⟨source.utf8ByteSize, source.utf8ByteSize⟩⟩ ∧ ts = [] ∨
      t.Written source last ∧ Tiles source t.span.stop (some t.token) ts)

/-- A token stands behind what is made of gaps. -/
private theorem stands_of_gaps {source : String} {before gap text : List Char}
    {t : Token} {stop : Nat}
    (hsource : source.toList = before ++ (gap ++ text)) (hgaps : Gaps text gap)
    (hstop : String.Pos.Raw.IsValid source ⟨stop⟩) :
    Lexeme.Stands source (byteLength before) ⟨t, ⟨byteLength (before ++ gap), stop⟩⟩ := by
  have hsource' : source.toList = before ++ gap ++ text := by rw [hsource, List.append_assoc]
  refine ⟨?_, isValid_byteLength hsource', hstop, ?_⟩
  · show _ ≤ byteLength (before ++ gap)
    rw [byteLength_append]
    exact Nat.le_add_right _ _
  · show Gaps (between source (byteLength (before ++ gap)) _)
      (between source (byteLength before) (byteLength (before ++ gap)))
    rw [between_end hsource', byteLength_append, between_eq hsource]
    exact hgaps

/-- What spells a token, and goes no further, is the token written in the text. -/
private theorem written_of_spells {source : String} {last : Option Token} {t : Token}
    {before front rest : List Char} (hsource : source.toList = before ++ (front ++ rest))
    (hspells : Spells t front) (hends : t.Ends last front rest) :
    Lexeme.Written source last
      ⟨t, ⟨byteLength before, byteLength before + byteLength front⟩⟩ where
  ne_eof := by
    rintro rfl
    exact hends
  start_lt_stop := by
    obtain ⟨c, more, rfl⟩ := List.exists_cons_of_ne_nil hspells.ne_nil
    have hpos := c.utf8Size_pos
    show byteLength before < byteLength before + byteLength (c :: more)
    rw [byteLength_cons]
    omega
  spells := by
    rw [between_eq hsource]
    exact hspells
  ends := by
    show t.Ends last (between source (byteLength before) _)
      (between source (byteLength before + byteLength front) _)
    have hbehind : source.toList = before ++ front ++ rest := by rw [hsource, List.append_assoc]
    rw [between_eq hsource, ← byteLength_append, between_end hbehind]
    exact hends

theorem Lexes.tiles {source : String} {last : Option Token} {offset : Nat} {text : List Char}
    {ts : List Lexeme} (h : Lexes last offset text ts) : ∀ {before gap : List Char},
    source.toList = before ++ (gap ++ text) → offset = byteLength (before ++ gap) →
    Gaps text gap → Tiles source (byteLength before) last ts := by
  induction h with
  | done =>
    intro before gap hsource hoffset hgaps
    have hsource' : source.toList = before ++ gap := by rw [hsource, List.append_nil]
    have hsize : source.utf8ByteSize = byteLength (before ++ gap) := by
      rw [utf8ByteSize_eq_byteLength, hsource']
    subst hoffset
    refine ⟨stands_of_gaps hsource hgaps ?_, .inl ⟨by rw [hsize], rfl⟩⟩
    have hsource'' : source.toList = before ++ gap ++ [] := by rw [hsource', List.append_nil]
    exact isValid_byteLength hsource''
  -- a gap is put to the others in front of the next token
  | @gap last offset front rest ts hgap _ ih =>
    intro before gaps hsource hoffset hgaps
    refine @ih before (gaps ++ front) ?_ ?_ (hgaps.concat hgap)
    · rw [hsource, List.append_assoc]
    · rw [hoffset, ← byteLength_append, List.append_assoc]
  | @token last offset t front rest ts hspells hends _ ih =>
    intro before gaps hsource hoffset hgaps
    subst hoffset
    have hsource' : source.toList = before ++ gaps ++ (front ++ rest) := by
      rw [hsource, List.append_assoc]
    have hstop : byteLength (before ++ gaps) + byteLength front
        = byteLength (before ++ gaps ++ front) := (byteLength_append _ _).symm
    have hbehind : source.toList = before ++ gaps ++ front ++ rest := by
      rw [hsource', List.append_assoc (before ++ gaps)]
    refine ⟨stands_of_gaps hsource hgaps ?_, .inr ⟨written_of_spells hsource' hspells hends, ?_⟩⟩
    · rw [hstop]
      exact isValid_byteLength hbehind
    · show Tiles source (byteLength (before ++ gaps) + byteLength front) (some t) ts
      rw [hstop]
      exact @ih (before ++ gaps ++ front) [] (by rw [hbehind, List.nil_append])
        (by rw [List.append_nil, ← hstop]) .nil

namespace Tiles

variable {source : String} {lo : Nat} {last : Option Token} {t : Lexeme} {ts : List Lexeme}

/-- Whatever token one looks at, the text is what the tokens from there on say. -/
theorem of_append {front rest : List Lexeme} (h : Tiles source lo last (front ++ t :: rest)) :
    ∃ lo', lo ≤ lo' ∧ Tiles source lo' ((front.getLast?.map (·.token)).or last) (t :: rest) := by
  induction front generalizing lo last with
  | nil => exact ⟨lo, le_rfl, h⟩
  | cons a front ih =>
    obtain ⟨hstands, ⟨-, hnil⟩ | ⟨hwritten, hrest⟩⟩ := h
    · simp at hnil
    · obtain ⟨lo', hle, htiles⟩ := ih hrest
      refine ⟨lo', hstands.le_start.trans (hwritten.start_lt_stop.le.trans hle), ?_⟩
      cases front with
      | nil => exact htiles
      | cons b front =>
        rw [List.getLast?_cons_cons]
        rwa [List.getLast?_cons, Option.map_some, Option.some_or] at htiles ⊢

theorem stands (h : Tiles source lo last ts) (ht : t ∈ ts) : ∃ lo', t.Stands source lo' := by
  obtain ⟨front, rest, rfl⟩ := List.append_of_mem ht
  obtain ⟨lo', -, hstands, -⟩ := h.of_append
  exact ⟨lo', hstands⟩

theorem ends (h : Tiles source lo last ts) :
    ∃ front, ts = front ++ [⟨.eof, ⟨source.utf8ByteSize, source.utf8ByteSize⟩⟩] ∧
      ∀ t ∈ front, t.token ≠ .eof ∧ t.span.start < t.span.stop := by
  induction ts generalizing lo last with
  | nil => exact h.elim
  | cons a ts ih =>
    obtain ⟨-, ⟨rfl, rfl⟩ | ⟨hwritten, hrest⟩⟩ := h
    · exact ⟨[], rfl, by simp⟩
    · obtain ⟨front, rfl, hfront⟩ := ih hrest
      exact ⟨a :: front, rfl, List.forall_mem_cons.2
        ⟨⟨hwritten.ne_eof, hwritten.start_lt_stop⟩, hfront⟩⟩

theorem le_start (h : Tiles source lo last ts) (ht : t ∈ ts) : lo ≤ t.span.start := by
  obtain ⟨front, rest, rfl⟩ := List.append_of_mem ht
  obtain ⟨lo', hle, hstands, -⟩ := h.of_append
  exact hle.trans hstands.le_start

theorem start_le_stop (h : Tiles source lo last ts) (ht : t ∈ ts) :
    t.span.start ≤ t.span.stop := by
  obtain ⟨front, rest, rfl⟩ := List.append_of_mem ht
  obtain ⟨lo', -, -, ⟨rfl, -⟩ | ⟨hwritten, -⟩⟩ := h.of_append
  · exact le_rfl
  · exact hwritten.start_lt_stop.le

theorem increasing (h : Tiles source lo last ts) :
    ts.Pairwise fun a b ↦ a.span.start < b.span.start ∧ a.span.stop ≤ b.span.start := by
  induction ts generalizing lo last with
  | nil => exact .nil
  | cons a ts ih =>
    obtain ⟨-, ⟨-, rfl⟩ | ⟨hwritten, hrest⟩⟩ := h
    · exact List.pairwise_singleton _ _
    · refine .cons (fun b hb ↦ ?_) (ih hrest)
      have hle := hrest.le_start hb
      exact ⟨hwritten.start_lt_stop.trans_le hle, hle⟩

theorem gaps {a b : Lexeme} (h : Tiles source lo last ts) (hab : [a, b] <:+: ts) :
    Gaps (between source b.span.start source.utf8ByteSize)
      (between source a.span.stop b.span.start) := by
  obtain ⟨front, rest, rfl⟩ := hab
  rw [List.append_assoc] at h
  have hpair : Tiles source lo last (front ++ a :: (b :: rest)) := h
  obtain ⟨lo', -, -, ⟨-, hnil⟩ | ⟨-, hstands, -⟩⟩ := hpair.of_append
  · cases hnil
  · exact hstands.gaps

/-- A token that is not the end mark is written behind the one before it. -/
theorem written {front rest : List Lexeme} (h : Tiles source lo none (front ++ t :: rest))
    (ht : t.token ≠ .eof) : t.Written source (front.getLast?.map (·.token)) := by
  obtain ⟨lo', -, -, ⟨rfl, -⟩ | ⟨hwritten, -⟩⟩ := h.of_append
  · exact absurd rfl ht
  · rwa [Option.or_none] at hwritten

end Tiles

theorem lex_tiles {source : String} {ts : List Lexeme} (h : lex source = .ok ts) :
    Tiles source 0 none ts :=
  @Lexes.tiles _ _ _ _ _ (lex_eq_ok_iff.1 h) [] [] rfl rfl .nil

/-- Cutting a text into tokens loses nothing of it. -/
theorem lex_tokenized {source : String} {ts : List Lexeme} (h : lex source = .ok ts) :
    Tokenized source ts := by
  have htiles := lex_tiles h
  refine ⟨htiles.ends, fun t ht ↦ ?_, htiles.increasing, fun t ht ↦ ?_, fun a b hab ↦ ?_,
    fun t ht hne ↦ ?_, fun front t rest hts ↦ ⟨fun value hvalue hsign ↦ ?_, fun hminus hdigit ↦ ?_⟩⟩
  · obtain ⟨lo, hstands⟩ := htiles.stands ht
    exact ⟨hstands.start, hstands.stop⟩
  · cases ts with
    | nil => cases ht
    | cons a ts =>
      cases ht
      exact htiles.1.gaps
  · exact htiles.gaps hab
  · obtain ⟨front, rest, rfl⟩ := List.append_of_mem ht
    exact (htiles.written hne).spells
  · subst hts
    have hends := (htiles.written (by rw [hvalue]; exact nofun)).ends
    rw [hvalue] at hends
    simpa [Option.any_map] using hends.2.2.2 hsign
  · subst hts
    have hends := (htiles.written (by rw [hminus]; exact nofun)).ends
    rw [hminus] at hends
    have hsign := hends.2.2.1 rfl
    rw [Piece.isSign, hdigit, Bool.true_and, Bool.not_eq_false'] at hsign
    simpa [Option.any_map] using hsign

/-- A text with a joined and a separate minus, both comments, a name cut off by a comment and
characters of several bytes. -/
theorem lex_tokenized_sample :
    ∃ ts, lex "#out é/x \nx/*é*/-1 else \t if (&y, -2.50) // ü" = .ok ts ∧ ts.length = 11 ∧
      Tokenized "#out é/x \nx/*é*/-1 else \t if (&y, -2.50) // ü" ts := by
  have hlength : (lex "#out é/x \nx/*é*/-1 else \t if (&y, -2.50) // ü").toOption.map List.length
      = some 11 := by
    decide +kernel
  cases h : lex "#out é/x \nx/*é*/-1 else \t if (&y, -2.50) // ü" with
  | error e =>
    rw [h] at hlength
    cases hlength
  | ok ts =>
    rw [h] at hlength
    exact ⟨ts, rfl, Option.some.inj hlength, lex_tokenized h⟩

end CharacterScript
