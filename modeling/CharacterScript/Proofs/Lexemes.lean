import CharacterScript.Token.Lexer
import Mathlib.Data.List.TakeWhile

/-!
# Lexemes in order

The lexemes of a text stand one behind the other: each takes up some text, except the one that marks
the end, and starts no earlier than the one before it stops. `Ordered lo ts` says this of a list
that starts at `lo` or later. It is the form that a reader of lexemes can thread through: what it
leaves is again ordered, from where it stopped.

## Names

The same list also carries the one fact about spelling that later proofs need, that a name consists
of word characters.

## Why from one offset on

A reader takes lexemes off the front of a list. What is known of the rest must not depend on what
was taken, and "in order, from here on" does not. A reader that leaves `ts` behind a node that
ends at `lo` leaves an ordered list from `lo` on, and this is all the next reader is told.
-/

namespace CharacterScript

/-- A text of word characters only. -/
def IsWord (s : String) : Prop :=
  ∀ c ∈ s.toList, isWordChar c = true

theorem isWord_ofList_takeWhile (cs : List Char) :
    IsWord (String.ofList (cs.takeWhile isWordChar)) := by
  intro c hc
  rw [String.toList_ofList] at hc
  exact List.mem_takeWhile_imp hc

/-- Word characters are of ASCII. -/
theorem isWordChar_range {c : Char} (h : isWordChar c = true) :
    0 < c.val.toNat ∧ c.val.toNat < 128 := by
  unfold isWordChar Char.isAlphanum Char.isAlpha Char.isUpper Char.isLower Char.isDigit at h
  simp only [Bool.or_eq_true, Bool.and_eq_true, decide_eq_true_eq, beq_iff_eq,
    UInt32.le_iff_toNat_le, ge_iff_le] at h
  rcases h with h | rfl
  · have hA : 'A'.val.toNat = 65 := rfl
    have hZ : 'Z'.val.toNat = 90 := rfl
    have ha : 'a'.val.toNat = 97 := rfl
    have hz : 'z'.val.toNat = 122 := rfl
    have h0 : '0'.val.toNat = 48 := rfl
    have h9 : '9'.val.toNat = 57 := rfl
    omega
  · decide

/-- What holds of every lexeme by itself. -/
structure Lexeme.Sound (t : Lexeme) : Prop where
  /-- It does not end before it starts. -/
  start_le_stop : t.span.start ≤ t.span.stop
  /-- It takes up some bytes, unless it marks the end. -/
  start_lt_stop : t.token ≠ .eof → t.span.start < t.span.stop
  /-- A name has only characters of words. -/
  isWord : ∀ {s}, t.token = .name s → IsWord s

/-- The lexemes stand one behind the other, from `lo` on. -/
def Ordered (lo : Nat) : List Lexeme → Prop
  | [] => True
  | t :: ts => lo ≤ t.span.start ∧ t.Sound ∧ Ordered t.span.stop ts

/-- Where the last lexeme stops, or `lo` if there is none. -/
def lastStop (lo : Nat) : List Lexeme → Nat
  | [] => lo
  | t :: ts => lastStop t.span.stop ts

theorem Ordered.mono {lo lo' : Nat} (hle : lo' ≤ lo) :
    ∀ {ts : List Lexeme}, Ordered lo ts → Ordered lo' ts
  | [], _ => trivial
  | _ :: _, ⟨hlo, hsound, hrest⟩ => ⟨hle.trans hlo, hsound, hrest⟩

theorem ordered_append_singleton {t : Lexeme} {lo : Nat} {ts : List Lexeme} (h : Ordered lo ts)
    (hle : lastStop lo ts ≤ t.span.start) (ht : t.Sound) : Ordered lo (ts ++ [t]) := by
  induction ts generalizing lo with
  | nil => exact ⟨hle, ht, trivial⟩
  | cons u ts ih =>
    obtain ⟨hlo, hsound, hrest⟩ := h
    exact ⟨hlo, hsound, ih hrest hle⟩

theorem lastStop_append_singleton {t : Lexeme} (lo : Nat) (ts : List Lexeme) :
    lastStop lo (ts ++ [t]) = t.span.stop := by
  induction ts generalizing lo with
  | nil => rfl
  | cons u ts ih => exact ih u.span.stop

/-! ## Lengths in bytes -/

private theorem foldl_utf8Size (cs : List Char) : ∀ n : Nat,
    cs.foldl (fun n c ↦ n + c.utf8Size) n = n + byteLength cs := by
  induction cs with
  | nil => intro n; rfl
  | cons c cs ih =>
    intro n
    rw [byteLength, List.foldl_cons, List.foldl_cons, ih, ih (0 + c.utf8Size)]
    omega

theorem byteLength_cons (c : Char) (cs : List Char) :
    byteLength (c :: cs) = c.utf8Size + byteLength cs := by
  rw [byteLength, List.foldl_cons, foldl_utf8Size, Nat.zero_add]

theorem byteLength_take_cons {n : Nat} (hn : 0 < n) (c : Char) (cs : List Char) :
    byteLength ((c :: cs).take n) = c.utf8Size + byteLength (cs.take (n - 1)) := by
  obtain ⟨m, rfl⟩ : ∃ m, n = m + 1 := ⟨n - 1, by omega⟩
  rw [List.take_succ_cons, byteLength_cons, Nat.add_sub_cancel]

/-! ## One piece

There is one lemma for each form of a token, and `Piece.read` is one of the forms at each place. -/

/-- What the walk over a text relies on: a token takes at least one character, is not the end mark,
and if it is a name then it is a word. -/
structure Piece.Fits (t : Token) (width : Nat) : Prop where
  /-- It takes at least one character. -/
  width_pos : 0 < width
  /-- It is not the end mark. -/
  ne_eof : t ≠ .eof
  /-- A name has only characters of words. -/
  isWord : ∀ {s}, t = .name s → IsWord s

namespace Piece

private theorem Fits.plain {t : Token} {width : Nat} (hpos : 0 < width)
    (hclass : ∀ s, t ≠ .name s) (heof : t ≠ .eof) : Fits t width :=
  ⟨hpos, heof, fun h ↦ absurd h (hclass _)⟩

private theorem directive_fits {cs : List Char} {t : Token} {width : Nat}
    (h : directive cs = .ok (.token t width)) : Fits t width := by
  rw [directive] at h
  dsimp only at h
  split at h
  · cases h
    exact .plain (by omega) (by simp) (by simp)
  · split at h
    · cases h
      exact .plain (by omega) (by simp) (by simp)
    · split at h
      · cases h
      · split at h
        · split at h
          · cases h
          · cases h
            exact .plain (by omega) (by simp) (by simp)
        · cases h

private theorem text_fits {cs : List Char} {t : Token} {width : Nat}
    (h : text cs = .ok (.token t width)) : Fits t width := by
  rw [text] at h
  split at h
  · cases h
  · cases h
    exact .plain (by omega) (by simp) (by simp)

private theorem hex_fits {cs : List Char} {t : Token} {width : Nat}
    (h : hex cs = .ok (.token t width)) : Fits t width := by
  rw [hex] at h
  split at h
  · cases h
  · cases h
    exact .plain (by omega) (by simp) (by simp)

private theorem length_takeWhile_pos {p : Char → Bool} {c : Char} (h : p c = true)
    (cs : List Char) : 0 < ((c :: cs).takeWhile p).length := by
  rw [List.takeWhile_cons, if_pos h]
  exact Nat.succ_pos _

private theorem decimal_width_pos {c : Char} {cs : List Char} (h : c.isDigit = true) :
    0 < (decimal (c :: cs)).2 := by
  have hpos := length_takeWhile_pos h cs
  rw [decimal]
  have hwhole : (decimalParts (c :: cs)).1 = (c :: cs).takeWhile Char.isDigit := by
    rw [decimalParts]
    split <;> rfl
  dsimp only
  rw [hwhole]
  split <;> omega

theorem isWordChar_of_isWordStart {c : Char} (h : isWordStart c = true) :
    isWordChar c = true := by
  rw [isWordStart, Bool.or_eq_true] at h
  rw [isWordChar, Bool.or_eq_true, Char.isAlphanum, Bool.or_eq_true]
  rcases h with h | h
  · exact Or.inl (Or.inl h)
  · exact Or.inr h

private theorem word_fits {c : Char} {cs : List Char} (hc : isWordStart c = true) {t : Token}
    {width : Nat} (h : word (c :: cs) = .token t width) : Fits t width := by
  have hpos := length_takeWhile_pos (isWordChar_of_isWordStart hc) cs
  rw [word] at h
  split at h
  · split at h
    · cases h
      exact .plain (by omega) (by simp) (by simp)
    · cases h
      exact .plain hpos (by simp) (by simp)
  · cases h
    exact .plain hpos (by simp) (by simp)
  · cases h
    refine ⟨hpos, by simp, fun hs ↦ ?_⟩
    cases hs
    exact isWord_ofList_takeWhile _

private theorem punct_fits {c : Char} {cs : List Char} {t : Token} {width : Nat}
    (h : punct c cs = .ok (.token t width)) : Fits t width := by
  have hspelling : ∀ p : Punct, 0 < p.spelling.toList.length := by
    intro p
    cases p <;> decide
  rw [punct] at h
  split at h
  · cases h
    exact .plain (hspelling _) (by simp) (by simp)
  · cases h

/-- What is read at the front of the text `c :: cs` after the token `last`, form by form. The marks
come last, and they know that nothing which starts with the same character stands there. -/
inductive Form (last : Option Token) : Char → List Char → Except LexCause Piece → Prop
  | blank {c cs} (hc : isBlank c = true) : Form last c cs (.ok (.gap 1))
  | line {cs} (hnext : cs.head? = some '/') :
    Form last '/' cs (.ok (.gap (1 + (upToNewline cs).length)))
  | comment {cs width} (hnext : cs.head? = some '*')
    (hwidth : commentWidth? 2 cs.tail = some width) : Form last '/' cs (.ok (.gap width))
  | openComment {cs} : Form last '/' cs (.error .unterminatedComment)
  | directive {cs} : Form last '#' cs (Piece.directive cs)
  | text {cs} : Form last '"' cs (Piece.text cs)
  | negative {cs} (hsign : isSign last cs = true) :
    Form last '-' cs (.ok (.token (.number (-(decimal cs).1)) ((decimal cs).2 + 1)))
  | reference {cs} (hstart : cs.head?.any isWordStart = true) :
    Form last '&' cs (.ok (.token (.reference (String.ofList (cs.takeWhile isWordChar)))
      ((cs.takeWhile isWordChar).length + 1)))
  | hex {cs} (hx : cs.head?.any (fun x ↦ x == 'x' || x == 'X') = true) :
    Form last '0' cs (Piece.hex cs.tail)
  | number {c cs} (hc : c.isDigit = true)
    (hx : ¬(c = '0' ∧ cs.head?.any (fun x ↦ x == 'x' || x == 'X') = true)) :
    Form last c cs (.ok (.token (.number (decimal (c :: cs)).1) (decimal (c :: cs)).2))
  | word {c cs} (hc : isWordStart c = true) : Form last c cs (.ok (Piece.word (c :: cs)))
  | punct {c cs} (hline : ¬(c = '/' ∧ cs.head? = some '/'))
    (hblock : ¬(c = '/' ∧ cs.head? = some '*')) (hminus : ¬(c = '-' ∧ isSign last cs = true))
    (hampersand : ¬(c = '&' ∧ cs.head?.any isWordStart = true)) :
    Form last c cs (Piece.punct c cs)

theorem form_read (last : Option Token) (c : Char) (cs : List Char) :
    Form last c cs (read last c cs) := by
  rw [read]
  by_cases hblank : isBlank c = true
  · rw [if_pos hblank]
    exact .blank hblank
  rw [if_neg hblank]
  by_cases hline : c = '/' ∧ cs.head? = some '/'
  · rw [if_pos hline]
    obtain ⟨rfl, hnext⟩ := hline
    exact .line hnext
  rw [if_neg hline]
  by_cases hblock : c = '/' ∧ cs.head? = some '*'
  · rw [if_pos hblock]
    obtain ⟨rfl, hnext⟩ := hblock
    cases hwidth : commentWidth? 2 cs.tail with
    | some width => exact .comment hnext hwidth
    | none => exact .openComment
  rw [if_neg hblock]
  by_cases hhash : c = '#'
  · rw [if_pos hhash, hhash]
    exact .directive
  rw [if_neg hhash]
  by_cases hquote : c = '"'
  · rw [if_pos hquote, hquote]
    exact .text
  rw [if_neg hquote]
  by_cases hminus : c = '-' ∧ isSign last cs = true
  · rw [if_pos hminus]
    obtain ⟨rfl, hsign⟩ := hminus
    exact .negative hsign
  rw [if_neg hminus]
  by_cases hampersand : c = '&' ∧ cs.head?.any isWordStart = true
  · rw [if_pos hampersand]
    obtain ⟨rfl, hstart⟩ := hampersand
    exact .reference hstart
  rw [if_neg hampersand]
  by_cases hx : c = '0' ∧ cs.head?.any (fun x ↦ x == 'x' || x == 'X') = true
  · rw [if_pos hx]
    obtain ⟨rfl, hx⟩ := hx
    exact .hex hx
  rw [if_neg hx]
  by_cases hdigit : c.isDigit = true
  · rw [if_pos hdigit]
    exact .number hdigit hx
  rw [if_neg hdigit]
  by_cases hstart : isWordStart c = true
  · rw [if_pos hstart]
    exact .word hstart
  · rw [if_neg hstart]
    exact .punct hline hblock hminus hampersand

theorem read_fits {last : Option Token} {c : Char} {cs : List Char} {t : Token} {width : Nat}
    (h : read last c cs = .ok (.token t width)) : Fits t width := by
  have hform := form_read last c cs
  generalize read last c cs = result at h hform
  cases hform with
  | blank | line | comment | openComment => cases h
  | directive => exact directive_fits h
  | text => exact text_fits h
  | negative | reference =>
    cases h
    exact .plain (by omega) (by simp) (by simp)
  | hex => exact hex_fits h
  | number hdigit =>
    cases h
    exact .plain (decimal_width_pos hdigit) (by simp) (by simp)
  | word hstart =>
    rw [Except.ok.injEq] at h
    exact word_fits hstart h
  | punct => exact punct_fits h

end Piece

/-! ## The walk -/

private theorem lexFrom_ordered {cs : List Char} : ∀ {offset skip : Nat} {done ts : List Lexeme},
    lexFrom offset skip done cs = .ok ts → Ordered 0 done.reverse →
    lastStop 0 done.reverse ≤ offset + byteLength (cs.take skip) → Ordered 0 ts := by
  induction cs with
  | nil =>
    intro offset skip done ts h hdone hstop
    rw [lexFrom, Except.ok.injEq] at h
    rw [← h, List.reverse_cons]
    -- the end of the text is a lexeme, too, and the only one that may be empty
    refine ordered_append_singleton hdone ?_ ⟨Nat.le_refl _, by simp, by simp⟩
    simpa [byteLength] using hstop
  | cons c cs ih =>
    intro offset skip done ts h hdone hstop
    rw [lexFrom.eq_def] at h
    dsimp only at h
    split at h
    · -- still inside the piece before
      refine ih h hdone (hstop.trans ?_)
      rw [byteLength_take_cons (Nat.succ_pos _), Nat.succ_sub_one, Nat.add_assoc]
    · rw [List.take_zero] at hstop
      have hstop' : lastStop 0 done.reverse ≤ offset := hstop
      split at h
      · cases h
      · exact ih h hdone (by omega)
      next t width hread =>
        -- a token has at least one character, so the next lexeme starts behind it
        have hfits := Piece.read_fits hread
        have hlen := byteLength_take_cons hfits.width_pos c cs
        have hsize := c.utf8Size_pos
        refine ih h ?_ ?_
        · rw [List.reverse_cons]
          refine ordered_append_singleton hdone hstop' ⟨?_, fun _ ↦ ?_, hfits.isWord⟩
          · show offset ≤ offset + _
            omega
          · show offset < offset + _
            omega
        · rw [List.reverse_cons, lastStop_append_singleton]
          show offset + _ ≤ _
          omega

/-- The lexemes of a text stand one behind the other. -/
theorem lex_ordered {source : String} {ts : List Lexeme} (h : lex source = .ok ts) :
    Ordered 0 ts :=
  lexFrom_ordered h trivial (Nat.zero_le _)

end CharacterScript
