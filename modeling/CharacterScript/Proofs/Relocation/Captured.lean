import CharacterScript.Proofs.Relocation.Names
import CharacterScript.Proofs.Relocation.Splices

/-!
# A part of a text, read on its own

The text of a definition, and that of a calculation, is cut out of the file and read again later.
Two things are different then. There is no token before the first one, which matters to a `-` only,
and no expression starts with one (`Lexes.at_start`). And white space at the ends is gone, which
separated nothing and belonged to no token, but may have been the end of a line comment
(`Lexes.trimEnd`).

## White space

The white space that is trimmed off is that of all scripts, while tokens are separated by five
characters of ASCII. So it has to be shown that a token never ends with any other white space, and
that a text literal or a comment cannot be cut into. The end of a path is trimmed by the lexer
itself, and a path is no part of an expression.
-/

namespace CharacterScript

variable {last last' : Option Token} {t : Token} {offset : Nat}
variable {front rest kept trailing text : List Char} {ts : List Lexeme}

/-! ## At the start of a text

With no token in front, a minus before a digit is a sign. An expression that starts with a minus
has it as a sign already. -/

/-- A token other than `-` goes no further at the start of a text, either. -/
theorem Token.Ends.at_start (h : t.Ends last front rest) (ht : t ≠ .punct .minus) :
    t.Ends none front rest := by
  cases t with
  | keyword k => cases k <;> exact h
  | number value =>
    obtain ⟨hdigits, hpoint, hzero, -⟩ := h
    exact ⟨hdigits, hpoint, hzero, fun _ ↦ rfl⟩
  | punct p =>
    obtain ⟨hread, hslash, -, hampersand⟩ := h
    exact ⟨hread, hslash, fun hp ↦ absurd (congrArg Token.punct hp) ht, hampersand⟩
  | directive | defineWord | calcWord | hex | text | name | reference => exact h
  | eof => exact h

/-- What stands behind a token is made of the same tokens as a text of its own, if it does not start
with a `-`. -/
theorem Lexes.at_start (h : Lexes last offset text ts)
    (hfirst : ∀ l, ts.head? = some l → l.token ≠ .punct .minus) :
    Lexes none 0 text (ts.map (Lexeme.rebase offset 0)) := by
  suffices key : ∀ base ≤ offset, Lexes none (CharacterScript.rebase base 0 offset) text
      (ts.map (Lexeme.rebase base 0)) by
    have hhere := key offset le_rfl
    rwa [CharacterScript.rebase, Nat.sub_self] at hhere
  have hadd : ∀ {base offset : Nat} (n : Nat), base ≤ offset →
      CharacterScript.rebase base 0 offset + n = CharacterScript.rebase base 0 (offset + n) := by
    intro base offset n hbase
    rw [CharacterScript.rebase, CharacterScript.rebase]
    omega
  induction h with
  | done => exact fun base _ ↦ .done
  | gap hgap _ ih =>
    intro base hbase
    refine .gap hgap ?_
    rw [hadd _ hbase]
    exact ih hfirst base (by omega)
  | token hspells hends hrest =>
    intro base hbase
    rw [List.map_cons, Lexeme.rebase, Span.rebase]
    dsimp only
    rw [← hadd _ hbase]
    exact .token hspells (hends.at_start (hfirst _ rfl))
      (hrest.rebase base 0 (by omega) (hadd _ hbase) rfl)

/-! ## White space at the ends

A gap at the end may lose its last characters. What is left is a shorter gap, or a comment that
now ends with the text. -/

theorem isSpace_eq_false {c : Char} (h : isWordChar c = true) : isSpace c = false := by
  rw [Bool.eq_false_iff]
  intro hspace
  rw [isWordChar_eq_false_of_isSpace hspace] at h
  cases h

theorem isWordChar_of_isHexDigit {c : Char} (h : isHexDigit c = true) : isWordChar c = true := by
  have hA : 'A'.val.toNat = 65 := rfl
  have hF : 'F'.val.toNat = 70 := rfl
  have hZ : 'Z'.val.toNat = 90 := rfl
  have ha : 'a'.val.toNat = 97 := rfl
  have hf : 'f'.val.toNat = 102 := rfl
  have hz : 'z'.val.toNat = 122 := rfl
  rw [isHexDigit, hexValue?] at h
  unfold isWordChar Char.isAlphanum Char.isAlpha Char.isUpper Char.isLower
  simp only [Bool.or_eq_true, Bool.and_eq_true, decide_eq_true_eq, UInt32.le_iff_toNat_le,
    ge_iff_le]
  split at h
  next hdigit => exact .inl (.inr hdigit)
  split at h
  next hlow =>
    have hlow' : 'a'.val.toNat ≤ c.val.toNat ∧ c.val.toNat ≤ 'f'.val.toNat := hlow
    omega
  split at h
  next hhigh =>
    have hhigh' : 'A'.val.toNat ≤ c.val.toNat ∧ c.val.toNat ≤ 'F'.val.toNat := hhigh
    omega
  · cases h

/-- The text neither starts nor ends with white space. -/
def Trimmed (text : List Char) : Prop :=
  text.head?.any isSpace = false ∧ text.getLast?.any isSpace = false

instance (text : List Char) : Decidable (Trimmed text) :=
  inferInstanceAs (Decidable (_ ∧ _))

theorem trimmed_of_forall (h : ∀ c ∈ text, isSpace c = false) : Trimmed text := by
  have hnone : ∀ {o : Option Char}, (∀ c, o = some c → c ∈ text) → o.any isSpace = false := by
    rintro (_ | c) ho
    · rfl
    · exact h c (ho c rfl)
  exact ⟨hnone fun c hc ↦ List.mem_of_head? hc, hnone fun c hc ↦ List.mem_of_getLast? hc⟩

theorem isSpace_decimalText {whole fraction : List Char} (h : IsDecimal whole fraction) :
    ∀ c ∈ decimalText whole fraction, isSpace c = false := by
  intro c hc
  have hclass := h.of_mem c hc
  rw [Bool.or_eq_true, beq_iff_eq] at hclass
  obtain hdigit | rfl := hclass
  · refine isSpace_eq_false ?_
    simp [isWordChar, Char.isAlphanum, hdigit]
  · decide

/-- A token is written without white space at its ends, unless it is a directive. -/
theorem Spells.trimmed (h : Spells t front) (ht : ∀ d path, t ≠ .directive d path) :
    Trimmed front := by
  cases h with
  | @keyword k => cases k <;> decide
  | elif =>
    refine ⟨rfl, ?_⟩
    rw [List.getLast?_append_of_ne_nil _ (by simp), List.getLast?_append_of_ne_nil _ (by decide)]
    decide
  | punct p => cases p <;> decide
  | defineWord | calcWord => decide
  | directive d => exact absurd rfl (ht d _)
  | number h => exact trimmed_of_forall (isSpace_decimalText h)
  | negative h =>
    exact trimmed_of_forall (List.forall_mem_cons.2 ⟨by decide, isSpace_decimalText h⟩)
  | @hex _ x digits hx _ _ hdigits =>
    refine trimmed_of_forall (List.forall_mem_cons.2 ⟨by decide, List.forall_mem_cons.2 ⟨?_, ?_⟩⟩)
    · obtain rfl | rfl := hx <;> decide
    · exact fun c hc ↦ isSpace_eq_false (isWordChar_of_isHexDigit (hdigits c hc))
  | text =>
    refine ⟨rfl, ?_⟩
    rw [← List.cons_append, List.getLast?_concat]
    rfl
  | name h => exact trimmed_of_forall fun c hc ↦ isSpace_eq_false (h.isWord c hc)
  | reference _ h =>
    exact trimmed_of_forall (List.forall_mem_cons.2
      ⟨by decide, fun c hc ↦ isSpace_eq_false (h c hc)⟩)

/-- White space in front of the first token can be left out. -/
theorem Lexes.trimStart (h : Lexes last offset text ts)
    (hts : ∀ l ∈ ts, ∀ d path, l.token ≠ .directive d path) :
    Lexes last (offset + byteLength (text.takeWhile isSpace)) (trimStart text) ts := by
  have hkept : ∀ {last : Option Token} {offset : Nat} {c : Char} {cs : List Char}
      {ts : List Lexeme}, isSpace c = false → Lexes last offset (c :: cs) ts →
      Lexes last (offset + byteLength ((c :: cs).takeWhile isSpace))
        (CharacterScript.trimStart (c :: cs)) ts := by
    intro last offset c cs ts hc h
    rw [CharacterScript.trimStart, List.takeWhile_cons, List.dropWhile_cons, hc]
    exact h
  induction h with
  | done => exact .done
  | @gap last offset front rest ts hgap hrest ih =>
    cases hgap with
    | @blank c hblank =>
      have hc := isSpace_of_isBlank hblank
      have hmore := ih hts
      rw [Nat.add_assoc, ← byteLength_append, List.singleton_append] at hmore
      rw [List.singleton_append, CharacterScript.trimStart, List.takeWhile_cons_of_pos hc,
        List.dropWhile_cons_of_pos hc]
      exact hmore
    | line hbody hend => exact hkept (by decide) (.gap (.line hbody hend) hrest)
    | block hbody => exact hkept (by decide) (.gap (.block hbody) hrest)
  | token hspells hends hrest =>
    obtain ⟨c, front, rfl⟩ := List.exists_cons_of_ne_nil hspells.ne_nil
    exact hkept (hspells.trimmed (hts _ List.mem_cons_self)).1 (.token hspells hends hrest)

/-- Two ways to cut a text: the second cut comes behind the first one, or within what is in front of
it. -/
theorem append_eq_append_cases {α : Type} {a b c d : List α} (h : a ++ b = c ++ d) :
    (∃ more, c = a ++ more ∧ b = more ++ d) ∨
      ∃ x cut, a = c ++ x :: cut ∧ d = x :: cut ++ b := by
  obtain ⟨more, hc, hb⟩ | ⟨cut, ha, hd⟩ := List.append_eq_append_iff.1 h
  · exact .inl ⟨more, hc, hb⟩
  · cases cut with
    | nil => exact .inl ⟨[], by rw [ha, List.append_nil, List.append_nil], hd.symm⟩
    | cons x cut => exact .inr ⟨x, cut, ha, hd⟩

theorem Lexes.eq_eof (h : Lexes last offset [] ts) : ts = [⟨.eof, ⟨offset, offset⟩⟩] := by
  generalize htext : ([] : List Char) = text at h
  cases h with
  | done => rfl
  | gap hgap => exact absurd (List.append_eq_nil_iff.1 htext.symm).1 hgap.ne_nil
  | token hspells => exact absurd (List.append_eq_nil_iff.1 htext.symm).1 hspells.ne_nil

/-- An `else` is continued by an `if` with or without white space behind it. -/
theorem Piece.elifWidth?_of_spaces {more : List Char}
    (h : Piece.elifWidth? (more ++ trailing) = none) (htrailing : ∀ c ∈ trailing,
    isSpace c = true) :
    Piece.elifWidth? more = none := by
  rw [Option.eq_none_iff_forall_ne_some]
  intro width hsome
  obtain ⟨blanks, after, hne, hblanks, rfl, hafter, -⟩ := Piece.elifWidth?_eq_some.1 hsome
  have hnext : NoneNext isWordChar (after ++ trailing) := by
    cases after with
    | cons c after => exact hafter
    | nil =>
      cases trailing with
      | nil => exact noneNext_nil _
      | cons c trailing =>
        exact noneNext_cons.2 (isWordChar_eq_false_of_isSpace (htrailing c List.mem_cons_self))
  have hsome' := Piece.elifWidth?_eq_some.2 ⟨blanks, after ++ trailing, hne, hblanks,
    rfl, hnext, rfl⟩
  rw [List.append_assoc, List.cons_append, List.cons_append, hsome'] at h
  cases h

/-- Of a gap that is cut off in front of white space nothing is left, or a line comment. -/
theorem Gap.lexes_of_spaces {x : Char} {cut : List Char} (h : Gap rest (kept ++ x :: cut))
    (hspaces : ∀ c ∈ x :: cut, isSpace c = true) :
      ∃ stop, Lexes last offset kept [⟨.eof, stop⟩] := by
  have hslash : '/' ∉ x :: cut := fun hmem ↦ absurd (hspaces _ hmem) (by decide)
  generalize hfront : kept ++ x :: cut = front at h
  cases h with
  | blank =>
    obtain ⟨rfl, -⟩ | ⟨-, hnil⟩ := List.append_eq_singleton_iff.1 hfront
    · exact ⟨_, .done⟩
    · cases hnil
  | @line body hbody =>
    rcases kept with _ | ⟨a, _ | ⟨b, kept⟩⟩
    · cases hfront
      exact absurd List.mem_cons_self hslash
    · cases hfront
      exact absurd List.mem_cons_self hslash
    · cases hfront
      have hline : Gap [] ('/' :: '/' :: kept) :=
        .line (fun hmem ↦ hbody (List.mem_append_left _ hmem)) (noneNext_nil _)
      have hlexes : Lexes last offset ('/' :: '/' :: kept ++ []) _ := .gap hline .done
      exact ⟨_, by rwa [List.append_nil] at hlexes⟩
  | @block body =>
    have hlast := congrArg List.getLast? hfront
    rw [List.getLast?_append_of_ne_nil _ (List.cons_ne_nil x cut),
      show '/' :: '*' :: (body ++ ['*', '/']) = ('/' :: '*' :: body ++ ['*']) ++ ['/'] by simp,
      List.getLast?_concat] at hlast
    exact absurd (List.mem_of_getLast? hlast) hslash

/-- White space behind the last token can be left out. A line comment may end there, and then it
ends with the text. -/
theorem Lexes.trimEnd (h : Lexes last offset text ts) (htext : text = kept ++ trailing)
    (htrailing : ∀ c ∈ trailing, isSpace c = true) (hkept : kept.getLast?.any isSpace = false)
    (hts : ∀ l ∈ ts, ∀ d path, l.token ≠ .directive d path) :
    ∃ ls stop stop', ts = ls ++ [⟨.eof, stop⟩] ∧
      Lexes last offset kept (ls ++ [⟨.eof, stop'⟩]) := by
  have hmore : ∀ {front more : List Char}, (front ++ more).getLast?.any isSpace = false →
      more.getLast?.any isSpace = false := by
    intro front more h
    cases hlast : more.getLast? with
    | none => rfl
    | some c => rwa [List.getLast?_append, hlast, Option.some_or] at h
  induction h generalizing kept trailing with
  | @done last offset =>
    obtain ⟨rfl, rfl⟩ := List.append_eq_nil_iff.1 htext.symm
    exact ⟨[], _, _, rfl, .done⟩
  | @gap last offset front rest ts hgap hrest ih =>
    obtain ⟨more, rfl, rfl⟩ | ⟨x, cut, rfl, rfl⟩ := append_eq_append_cases htext
    · obtain ⟨ls, stop, stop', rfl, hlexes⟩ := ih rfl htrailing (hmore hkept) hts
      refine ⟨ls, stop, stop', rfl, .gap ?_ hlexes⟩
      cases hgap with
      | blank hblank => exact .blank hblank
      | block hbody => exact .block hbody
      | line hbody hend =>
        refine .line hbody ?_
        cases more with
        | nil => exact noneNext_nil _
        | cons c more => exact hend
    · -- there are only spaces behind the gap
      obtain ⟨hx, hspaces⟩ := List.forall_mem_append.1 htrailing
      obtain ⟨ls, stop, stop', rfl, hlexes⟩ := ih (List.nil_append rest).symm hspaces rfl hts
      obtain ⟨rfl, -⟩ | ⟨-, hnil⟩ := List.append_eq_singleton_iff.1 hlexes.eq_eof
      · obtain ⟨stop', hkept'⟩ : ∃ stop', Lexes last offset kept [⟨.eof, stop'⟩] :=
          hgap.lexes_of_spaces hx
        exact ⟨[], stop, stop', rfl, hkept'⟩
      · cases hnil
  | @token last offset t front rest ts hspells hends hrest ih =>
    obtain ⟨more, rfl, rfl⟩ | ⟨x, cut, rfl, rfl⟩ := append_eq_append_cases htext
    · obtain ⟨ls, stop, stop', rfl, hlexes⟩ :=
        ih rfl htrailing (hmore hkept) (List.forall_mem_cons.1 hts).2
      refine ⟨_ :: ls, stop, stop', rfl, .token hspells ?_ hlexes⟩
      have hnext : t.Ends last front (more ++ []) :=
        hends.neutral hspells neutral_nil (fun hline _ ↦ ?_) ?_
      · rwa [List.append_nil] at hnext
      · rw [List.append_nil]
        cases more with
        | nil => exact noneNext_nil _
        | cons c more => exact hline
      · rintro rfl
        rw [List.append_nil]
        exact Piece.elifWidth?_of_spaces hends.2 htrailing
    · -- a token does not end with a space
      have hlast := (hspells.trimmed (hts _ List.mem_cons_self)).2
      rw [List.getLast?_append_of_ne_nil _ (List.cons_ne_nil x cut)] at hlast
      have hspaces := (List.forall_mem_append.1 htrailing).1
      cases hcut : (x :: cut).getLast? with
      | none => cases List.getLast?_eq_none_iff.1 hcut
      | some c =>
        rw [hcut, Option.any_some, hspaces c (List.mem_of_getLast? hcut)] at hlast
        cases hlast

/-! ## What is cut out -/

/-- What stands between two places of a text, where pieces of it start and end, is made of the same
tokens as a text of its own. -/
theorem Pieces.lex_captured {source : String} {before mid after : List Char}
    (hsource : source.toList = before ++ (mid ++ after))
    (h : Pieces after last (byteLength before) mid ts last') (hts : Inner ts)
    (hfirst : ∀ l, ts.head? = some l → l.token ≠ .punct .minus) :
    ∃ stop, lex (Parser.captured source ⟨byteLength before, byteLength before + byteLength mid⟩)
      = .ok (ts.map (Lexeme.rebase (byteLength before + byteLength (mid.takeWhile isSpace)) 0)
          ++ [⟨.eof, stop⟩]) := by
  have hplain : ∀ stop, ∀ l ∈ ts ++ [(⟨.eof, stop⟩ : Lexeme)], ∀ d path,
      l.token ≠ .directive d path := by
    intro stop l hl
    rcases List.mem_append.1 hl with hl | hl
    · exact (Token.isInner_iff.1 (hts l hl)).2
    · cases List.mem_singleton.1 hl
      nofun
  have hmid := (h.neutral neutral_nil fun _ ↦ noneNext_nil _).lexes .done
  rw [List.append_nil] at hmid
  obtain ⟨trailing, hsplit, htrailing, hlast⟩ := Piece.exists_trimEnd (trimStart mid)
  obtain ⟨ls, stop, stop', hls, hlexes⟩ :=
    (hmid.trimStart (hplain _)).trimEnd hsplit htrailing hlast (hplain _)
  obtain ⟨rfl, -⟩ := List.append_inj' hls rfl
  have halone := hlexes.at_start fun l hl ↦ by
    cases ts with
    | nil =>
      cases hl
      nofun
    | cons t ts => exact hfirst l hl
  rw [List.map_append] at halone
  have htext : Parser.captured source ⟨byteLength before, byteLength before + byteLength mid⟩
      = String.ofList (trim mid) :=
    congrArg (fun cs ↦ String.ofList (trim cs)) (between_eq hsource)
  rw [htext]
  exact ⟨_, lex_eq_ok_iff.2 (by rw [String.toList_ofList]; exact halone)⟩

theorem Pieces.append {middle : Option Token} {more : List Char} {ts' : List Lexeme}
    (h : Pieces (more ++ rest) last offset front ts middle)
    (hmore : Pieces rest middle (offset + byteLength front) more ts' last') :
    Pieces rest last offset (front ++ more) (ts ++ ts') last' := by
  induction h with
  | done => exact hmore
  | gap hgap _ ih =>
    rw [List.append_assoc]
    refine .gap (by rwa [List.append_assoc]) (ih ?_)
    rwa [byteLength_append, ← Nat.add_assoc] at hmore
  | token hspells hends _ ih =>
    rw [List.append_assoc, List.cons_append]
    refine .token hspells (by rwa [List.append_assoc]) (ih ?_)
    rwa [byteLength_append, ← Nat.add_assoc] at hmore

theorem Pieces.concat {spelled : List Char} {before : List Lexeme} {span : Span}
    (h : Pieces (spelled ++ rest) last offset front before last') (hspells : Spells t spelled)
    (hends : t.Ends last' spelled rest)
    (hspan : span = ⟨offset + byteLength front, offset + byteLength front + byteLength spelled⟩) :
    Pieces rest last offset (front ++ spelled) (before ++ [⟨t, span⟩]) (some t) := by
  have hends' : t.Ends last' spelled ([] ++ rest) := hends
  have hone : Pieces rest last' (offset + byteLength front) (spelled ++ []) _ _ :=
    .token hspells hends' .done
  rw [List.append_nil, ← hspan] at hone
  exact h.append hone

/-- A text can be cut behind each of its tokens. -/
theorem Lexes.exists_pieces {before after : List Lexeme} {l : Lexeme}
    (h : Lexes last offset text (before ++ l :: after)) (hl : l.token ≠ .eof) :
    ∃ front rest, text = front ++ rest ∧
      Pieces rest last offset front (before ++ [l]) (some l.token) ∧
      l.span.stop = offset + byteLength front ∧ Lexes (some l.token) l.span.stop rest after := by
  obtain ⟨front, spelled, rest, last', rfl, hfront, hspells, hends, hspan, hrest⟩ :=
    h.exists_token hl rfl
  refine ⟨front ++ spelled, rest, (List.append_assoc _ _ _).symm, hfront.concat hspells hends hspan,
    ?_, ?_⟩
  · rw [hspan, byteLength_append, ← Nat.add_assoc]
  · rwa [hspan]

end CharacterScript
