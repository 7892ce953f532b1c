import CharacterScript.Proofs.Lexemes
import Mathlib.Algebra.Ring.Nat

/-!
# What stands at one place of a text

`Piece.read` looks at a text from one place on and takes a piece off its front. Here this is said
without the reader. `Spells t front` says that `front` is a way to write the token `t`, and `t.Ends
last front rest` that the token goes no further when `rest` comes behind it; the token before it,
`last`, matters for the sign of a number only. A piece that is dropped is a `Gap`: a blank, a line
comment or a block comment.

What is read is of these forms: `Piece.found_of_read` and `Piece.gap_of_read`.

## Reading and writing

The reader is a sequence of tests, and the order of the tests is part of what it does. A form of a
token says what the characters are, not which tests they pass. The two agree because the
characters in front of a text decide which form it can have; what is left to compare are names
with keywords, signs with minus marks, and a slash with a comment.

A token goes no further if the next character could not be part of it. For a run of characters of
one class this is one condition, `NoneNext`, and most tokens are such runs.
-/

namespace CharacterScript

/-! ## Runs of characters -/

/-- The next character, if there is one, is not of the class. -/
def NoneNext (p : Char → Bool) (rest : List Char) : Prop :=
  rest.head?.any p = false

@[simp] theorem noneNext_nil (p : Char → Bool) : NoneNext p [] := rfl

@[simp] theorem noneNext_cons {p : Char → Bool} {c : Char} {rest : List Char} :
    NoneNext p (c :: rest) ↔ p c = false := by
  rw [NoneNext, List.head?_cons, Option.any_some]

/-- A run of a class is taken whole exactly when nothing of the class comes behind it. -/
theorem takeWhile_append_eq_iff {p : Char → Bool} {front rest : List Char} :
    (front ++ rest).takeWhile p = front ↔ (∀ c ∈ front, p c = true) ∧ NoneNext p rest := by
  induction front with
  | nil =>
    rw [List.nil_append, List.takeWhile_eq_nil_iff]
    cases rest with
    | nil => simp
    | cons c rest => simp
  | cons d front ih =>
    rw [List.cons_append, List.takeWhile_cons]
    split
    next hd =>
      rw [List.cons.injEq, List.forall_mem_cons]
      simp [hd, ih]
    next hd =>
      simp [hd]

/-- A text without a character is a run of all others. -/
theorem bne_of_not_mem {d : Char} {text : List Char} (h : d ∉ text) :
    ∀ c ∈ text, (c != d) = true := by
  intro c hc
  rw [bne_iff_ne]
  rintro rfl
  exact h hc

/-- Every text starts with a run of each class, which may be empty. -/
theorem exists_run (p : Char → Bool) (text : List Char) :
    ∃ front rest, text = front ++ rest ∧ (∀ c ∈ front, p c = true) ∧ NoneNext p rest := by
  have htake : (text.takeWhile p ++ text.dropWhile p).takeWhile p = text.takeWhile p := by
    rw [List.takeWhile_append_dropWhile]
  exact ⟨_, _, List.takeWhile_append_dropWhile.symm, takeWhile_append_eq_iff.1 htake⟩

/-! ## How tokens are written

Each token has one spelling or a class of them. Numbers are the ones with many: the value says
nothing about zeros at the ends. -/

/-- A word that can stand for something: it starts with a letter or an underscore and is no
keyword. -/
structure IsIdentifier (s : String) : Prop where
  /-- It starts as a word does. -/
  start : s.toList.head?.any isWordStart = true
  /-- It goes on as one. -/
  isWord : IsWord s
  /-- It has no meaning of its own. -/
  notKeyword : Keyword.ofWord? s = none

/-- The digits of a decimal literal, with a point between them if there is a fraction. -/
def decimalText (whole : List Char) : List Char → List Char
  | [] => whole
  | fraction => whole ++ '.' :: fraction

/-- The digits before and after the point. -/
structure IsDecimal (whole fraction : List Char) : Prop where
  /-- There is a digit before the point. -/
  whole_ne_nil : whole ≠ []
  /-- All before the point are digits. -/
  whole : ∀ c ∈ whole, c.isDigit = true
  /-- All behind the point are digits. -/
  fraction : ∀ c ∈ fraction, c.isDigit = true

/-- A number is written with digits and the point. -/
theorem IsDecimal.of_mem {whole fraction : List Char} (h : IsDecimal whole fraction) :
    ∀ c ∈ decimalText whole fraction, (c.isDigit || c == '.') = true := by
  intro c hc
  cases fraction with
  | nil => rw [h.whole c hc, Bool.true_or]
  | cons d fraction =>
    rcases List.mem_append.1 hc with hc | hc
    · rw [h.whole c hc, Bool.true_or]
    · rcases List.mem_cons.1 hc with rfl | hc
      · rfl
      · rw [h.fraction c hc, Bool.true_or]

/-- The ways to write a token. -/
inductive Spells : Token → List Char → Prop
  | keyword {k : Keyword} (h : k ∈ Keyword.words) : Spells (.keyword k) k.spelling.toList
  | elif {blanks : List Char} (hne : blanks ≠ []) (h : ∀ c ∈ blanks, c = ' ' ∨ c = '\t') :
    Spells (.keyword .elif) ("else".toList ++ (blanks ++ "if".toList))
  | punct (p : Punct) : Spells (.punct p) p.spelling.toList
  | defineWord : Spells .defineWord ('#' :: "define".toList)
  | calcWord : Spells .calcWord ('#' :: "calc".toList)
  /-- The path ends with its last character that is not white space. -/
  | directive (d : PathDirective) {path trailing : List Char} (hne : path ≠ [])
    (hpath : path.getLast?.any isSpace = false) (htrailing : ∀ c ∈ trailing, isSpace c = true)
    (hline : '\n' ∉ path ++ trailing) :
    Spells (.directive d (String.ofList path)) ('#' :: (d.word.toList ++ ' ' :: (path ++ trailing)))
  | number {whole fraction : List Char} (h : IsDecimal whole fraction) :
    Spells (.number (Piece.decimalValue whole fraction)) (decimalText whole fraction)
  | negative {whole fraction : List Char} (h : IsDecimal whole fraction) :
    Spells (.number (-Piece.decimalValue whole fraction)) ('-' :: decimalText whole fraction)
  | hex {value : UInt32} {x : Char} {digits : List Char} (hx : x = 'x' ∨ x = 'X')
    (hne : digits ≠ []) (hlength : digits.length ≤ maxHexDigits)
    (hdigits : ∀ c ∈ digits, isHexDigit c = true) (hvalue : value.toNat = hexNumber digits) :
    Spells (.hex value) ('0' :: x :: digits)
  | text {body : List Char} (h : '"' ∉ body) :
    Spells (.text (String.ofList body)) ('"' :: (body ++ ['"']))
  | name {s : String} (h : IsIdentifier s) : Spells (.name s) s.toList
  | reference {s : String} (hstart : s.toList.head?.any isWordStart = true) (h : IsWord s) :
    Spells (.reference s) ('&' :: s.toList)

/-- The token, written as `front` behind the token `last`, goes no further with `rest` behind it. -/
def Token.Ends (last : Option Token) (front rest : List Char) : Token → Prop
  | .keyword .else_ => NoneNext isWordChar rest ∧ Piece.elifWidth? rest = none
  | .keyword _ | .name _ | .reference _ | .defineWord | .calcWord => NoneNext isWordChar rest
  | .directive _ _ => NoneNext (· != '\n') rest
  | .hex _ => NoneNext isHexDigit rest
  | .number _ =>
    NoneNext Char.isDigit rest ∧
      ('.' ∉ front → ∀ more, rest = '.' :: more → NoneNext Char.isDigit more) ∧
      (front = ['0'] → NoneNext (fun x ↦ x == 'x' || x == 'X') rest) ∧
      (front.head? = some '-' → last.any Token.endsOperand = false)
  | .punct p =>
    Punct.read? (front ++ rest) = some p ∧
      (p = .slash → NoneNext (fun c ↦ c == '/' || c == '*') rest) ∧
      (p = .minus → Piece.isSign last rest = false) ∧
      (p = .ampersand → NoneNext isWordStart rest)
  | .text _ => True
  | .eof => False

/-! ## What is dropped -/

/-- A piece that is dropped, with `rest` behind it. A line comment runs up to the end of its line, a
block comment up to the first mark that closes it. -/
inductive Gap (rest : List Char) : List Char → Prop
  | blank {c : Char} (h : isBlank c = true) : Gap rest [c]
  | line {body : List Char} (hbody : '\n' ∉ body) (hrest : NoneNext (· != '\n') rest) :
    Gap rest ('/' :: '/' :: body)
  | block {body : List Char} (h : ¬ ['*', '/'] <:+: body ++ ['*']) :
    Gap rest ('/' :: '*' :: (body ++ ['*', '/']))


namespace Piece

variable {last : Option Token} {t : Token} {c : Char} {cs front rest : List Char}

theorem commentWidth?_eq_some {n w : Nat} {text : List Char} :
    commentWidth? n text = some w ↔ ∃ body rest, text = body ++ '*' :: '/' :: rest ∧
      w = n + body.length + 2 ∧ ¬ ['*', '/'] <:+: body ++ ['*'] := by
  fun_induction commentWidth? n text with
  | case1 n =>
    constructor
    · intro h
      cases h
    · rintro ⟨body, rest, h, -, -⟩
      cases body <;> cases h
  | case2 n rest =>
    constructor
    · intro h
      cases h
      exact ⟨[], rest, rfl, by simp, by decide⟩
    · rintro ⟨body, rest', h, rfl, hinfix⟩
      cases body with
      | nil => simp
      | cons d body =>
        -- a longer body would hold the mark that is here already
        exfalso
        apply hinfix
        rw [List.cons_append, List.cons.injEq] at h
        obtain ⟨rfl, h⟩ := h
        cases body with
        | nil => cases h
        | cons e body =>
          cases h
          exact ⟨[], body ++ ['*'], by simp⟩
  | case3 n d text hopen ih =>
    rw [ih]
    constructor
    · rintro ⟨body, rest, rfl, rfl, hinfix⟩
      refine ⟨d :: body, rest, rfl, by simp; omega, ?_⟩
      rw [List.cons_append, List.infix_cons_iff, not_or]
      refine ⟨fun hprefix ↦ ?_, hinfix⟩
      obtain ⟨rfl, hslash⟩ := List.cons_prefix_cons.1 hprefix
      cases body with
      | nil => simp at hslash
      | cons e body =>
        obtain ⟨rfl, -⟩ := List.cons_prefix_cons.1 hslash
        exact hopen _ rfl rfl
    · rintro ⟨body, rest, h, rfl, hinfix⟩
      cases body with
      | nil =>
        cases h
        exact absurd rfl (hopen rest rfl)
      | cons e body =>
        cases h
        rw [List.cons_append, List.infix_cons_iff, not_or] at hinfix
        exact ⟨body, rest, rfl, by simp; omega, hinfix.2⟩

/-! ## The forms of a token

From what the reader returned back to the form it has read, one lemma for each branch of the
reader. -/

theorem exists_trimEnd (line : List Char) : ∃ trailing, line = trimEnd line ++ trailing ∧
    (∀ c ∈ trailing, isSpace c = true) ∧ (trimEnd line).getLast?.any isSpace = false := by
  obtain ⟨trailing, path, hsplit, htrailing, hpath⟩ := exists_run isSpace line.reverse
  have htrim : trimEnd line = path.reverse := by
    rw [trimEnd, hsplit, List.dropWhile_append_of_pos htrailing]
    congr 1
    cases path with
    | nil => rfl
    | cons c path => rw [List.dropWhile_cons, if_neg (by simpa using hpath)]
  refine ⟨trailing.reverse, ?_, by simpa using htrailing, ?_⟩
  · rw [htrim, ← List.reverse_append, ← hsplit, List.reverse_reverse]
  · rw [htrim, List.getLast?_reverse]
    exact hpath

theorem trimEnd_append {path trailing : List Char} (hpath : path.getLast?.any isSpace = false)
    (htrailing : ∀ c ∈ trailing, isSpace c = true) : trimEnd (path ++ trailing) = path := by
  rw [trimEnd, List.reverse_append, List.dropWhile_append_of_pos (by simpa using htrailing)]
  rw [← List.reverse_reverse path, List.getLast?_reverse] at hpath
  rw [List.reverse_eq_iff]
  cases hrev : path.reverse with
  | nil => rfl
  | cons c path' =>
    rw [hrev] at hpath
    rw [List.dropWhile_cons, if_neg (by simpa using hpath)]

theorem decimal_append {whole fraction : List Char} (h : IsDecimal whole fraction)
    (hrest : NoneNext Char.isDigit rest)
    (hpoint : fraction = [] → ∀ more, rest = '.' :: more → NoneNext Char.isDigit more) :
    decimal (decimalText whole fraction ++ rest)
      = (decimalValue whole fraction, (decimalText whole fraction).length) := by
  have hparts : decimalParts (decimalText whole fraction ++ rest) = (whole, fraction) := by
    cases fraction with
    | nil =>
      have hwhole := takeWhile_append_eq_iff.2 ⟨h.whole, hrest⟩
      rw [decimalText, decimalParts, hwhole, List.drop_left]
      split
      next more =>
        rw [List.takeWhile_eq_nil_iff.2]
        cases more with
        | nil => simp
        | cons d more => simpa using hpoint rfl _ rfl
      · rfl
    | cons d fraction =>
      have hwhole : (whole ++ '.' :: (d :: fraction ++ rest)).takeWhile Char.isDigit = whole :=
        takeWhile_append_eq_iff.2 ⟨h.whole, by simp⟩
      have hfraction := takeWhile_append_eq_iff.2 ⟨h.fraction, hrest⟩
      have hsplit : decimalText whole (d :: fraction) ++ rest
          = whole ++ '.' :: (d :: fraction ++ rest) := by
        simp [decimalText]
      rw [hsplit, decimalParts, hwhole, List.drop_left]
      show (whole, (d :: fraction ++ rest).takeWhile Char.isDigit) = _
      rw [hfraction]
  rw [decimal, hparts]
  cases fraction with
  | nil => rfl
  | cons d fraction =>
    simp only [decimalText, List.isEmpty_cons, List.length_append, List.length_cons]
    rw [if_neg Bool.false_ne_true, Nat.add_right_comm, Nat.add_assoc]

theorem exists_decimal (hc : c.isDigit = true) :
    ∃ whole fraction rest, c :: cs = decimalText whole fraction ++ rest ∧ IsDecimal whole fraction ∧
      NoneNext Char.isDigit rest ∧
      (fraction = [] → ∀ more, rest = '.' :: more → NoneNext Char.isDigit more) := by
  obtain ⟨whole, rest, hsplit, hwhole, hrest⟩ := exists_run Char.isDigit (c :: cs)
  have hne : whole ≠ [] := by
    rintro rfl
    rw [List.nil_append] at hsplit
    rw [← hsplit, noneNext_cons, hc] at hrest
    cases hrest
  by_cases hpoint : ∀ more, rest = '.' :: more → NoneNext Char.isDigit more
  · exact ⟨whole, [], rest, hsplit, ⟨hne, hwhole, by simp⟩, hrest, fun _ ↦ hpoint⟩
  · obtain ⟨more, hpoint⟩ := not_forall.1 hpoint
    obtain ⟨rfl, hmore⟩ := Classical.not_imp.1 hpoint
    obtain ⟨fraction, rest, rfl, hfraction, hend⟩ := exists_run Char.isDigit more
    have hfne : fraction ≠ [] := by
      rintro rfl
      exact hmore hend
    refine ⟨whole, fraction, rest, ?_, ⟨hne, hwhole, hfraction⟩, hend, fun h ↦ absurd h hfne⟩
    rw [hsplit, decimalText.eq_2 _ _ hfne, List.append_assoc, List.cons_append]

theorem point_mem_decimalText {whole fraction : List Char} (h : IsDecimal whole fraction) :
    '.' ∈ decimalText whole fraction ↔ fraction ≠ [] := by
  have hwhole : '.' ∉ whole := fun hmem ↦ absurd (h.whole _ hmem) (by decide)
  cases fraction <;> simp [decimalText, hwhole]

theorem elifWidth?_eq_some {more : Nat} : elifWidth? rest = some more ↔
    ∃ blanks after, blanks ≠ [] ∧ (∀ c ∈ blanks, c = ' ' ∨ c = '\t') ∧
      rest = blanks ++ 'i' :: 'f' :: after ∧ NoneNext isWordChar after ∧
      more = blanks.length + 2 := by
  obtain ⟨blanks, after, rfl, hblanks, hafter⟩ := exists_run (fun c ↦ c == ' ' || c == '\t') rest
  have htake := takeWhile_append_eq_iff.2 ⟨hblanks, hafter⟩
  rw [elifWidth?, htake, List.drop_left]
  constructor
  · intro h
    split at h
    · cases h
    next hne =>
      split at h
      next after =>
        split at h
        · cases h
        next hword =>
          cases h
          refine ⟨blanks, after, by simpa using hne, by simpa using hblanks, rfl, ?_, rfl⟩
          exact Bool.eq_false_iff.2 hword
      · cases h
  · rintro ⟨blanks', after', hne, hblanks', hsplit, hword, rfl⟩
    have htake' : (blanks' ++ 'i' :: 'f' :: after').takeWhile (fun c ↦ c == ' ' || c == '\t')
        = blanks' := takeWhile_append_eq_iff.2 ⟨by simpa using hblanks', by simp⟩
    rw [← hsplit, htake] at htake'
    subst htake'
    obtain rfl := List.append_cancel_left hsplit
    rw [if_neg (by simpa using hne)]
    exact if_neg (by rw [hword]; exact Bool.false_ne_true)

end Piece

theorem Keyword.ofWord?_eq_some {s : String} {k : Keyword} :
    Keyword.ofWord? s = some k ↔ k ∈ Keyword.words ∧ k.spelling = s := by
  constructor
  · intro h
    exact ⟨List.mem_of_find?_eq_some h, by simpa using List.find?_some h⟩
  · rintro ⟨hk, rfl⟩
    cases k with
    | elif => exact absurd hk (by decide)
    | _ => decide

theorem PathDirective.ofWord?_eq_some {s : String} {d : PathDirective} :
    PathDirective.ofWord? s = some d ↔ d.word = s := by
  constructor
  · intro h
    simpa using List.find?_some h
  · rintro rfl
    cases d <;> decide

namespace Piece

variable {last : Option Token} {t : Token} {c : Char} {cs front rest : List Char}

/-- A token that reading may find: it is written at the front of the text, takes `width` characters
and goes no further. -/
def Found (last : Option Token) (text : List Char) (t : Token) (width : Nat) : Prop :=
  ∃ front rest, text = front ++ rest ∧ front.length = width ∧ Spells t front ∧
    t.Ends last front rest

theorem found_word (hc : isWordStart c = true) {width : Nat}
    (h : word (c :: cs) = .token t width) : Found last (c :: cs) t width := by
  obtain ⟨letters, rest, hsplit, hletters, hrest⟩ := exists_run isWordChar (c :: cs)
  have htake := takeWhile_append_eq_iff.2 ⟨hletters, hrest⟩
  have hhead : letters.head?.any isWordStart = true := by
    cases letters with
    | nil =>
      rw [← hsplit.trans (List.nil_append rest), noneNext_cons,
        isWordChar_of_isWordStart hc] at hrest
      cases hrest
    | cons d letters =>
      obtain ⟨rfl, -⟩ := List.cons.inj hsplit
      exact hc
  rw [hsplit, word, htake, List.drop_left] at h
  -- an `else` may go on with an `if`; any other keyword and any name is the run of letters
  split at h
  next hword =>
    have hspelling := (Keyword.ofWord?_eq_some.1 hword).2
    have hletters : letters = "else".toList := by
      rw [← String.toList_ofList (l := letters), ← hspelling]
      rfl
    split at h
    next more hmore =>
      obtain ⟨blanks, after, hne, hblanks, rfl, hafter, rfl⟩ := elifWidth?_eq_some.1 hmore
      cases h
      refine ⟨"else".toList ++ (blanks ++ "if".toList), after, ?_, ?_, .elif hne hblanks, hafter⟩
      · rw [hsplit, hletters]
        simp
      · rw [hletters]
        simp
        omega
    next hmore =>
      cases h
      refine ⟨letters, rest, hsplit, rfl, ?_, hrest, hmore⟩
      rw [hletters]
      exact .keyword (by decide)
  next k helse hword =>
    obtain ⟨hk, hspelling⟩ := Keyword.ofWord?_eq_some.1 hword
    cases h
    refine ⟨letters, rest, hsplit, rfl, ?_, ?_⟩
    · rw [← String.toList_ofList (l := letters), ← hspelling]
      exact .keyword hk
    · cases k with
      | else_ => exact absurd rfl helse
      | _ => exact hrest
  next hword =>
    cases h
    have hname : Spells (.name (String.ofList letters)) (String.ofList letters).toList :=
      .name ⟨by rw [String.toList_ofList]; exact hhead,
        fun d hd ↦ hletters d (by rwa [String.toList_ofList] at hd), hword⟩
    rw [String.toList_ofList] at hname
    exact ⟨letters, rest, hsplit, rfl, hname, hrest⟩

theorem found_directive {width : Nat} (h : directive cs = .ok (.token t width)) :
    Found last ('#' :: cs) t width := by
  obtain ⟨letters, rest, rfl, hletters, hrest⟩ := exists_run isWordChar cs
  have htake := takeWhile_append_eq_iff.2 ⟨hletters, hrest⟩
  have hspelling : ∀ {s : String}, String.ofList letters = s → letters = s.toList := by
    rintro s rfl
    rw [String.toList_ofList]
  rw [directive, htake, List.drop_left] at h
  dsimp only at h
  split at h
  next hname =>
    cases h
    obtain rfl := hspelling (beq_iff_eq.1 hname)
    exact ⟨'#' :: "define".toList, rest, rfl, rfl, .defineWord, hrest⟩
  split at h
  next hname =>
    cases h
    obtain rfl := hspelling (beq_iff_eq.1 hname)
    exact ⟨'#' :: "calc".toList, rest, rfl, rfl, .calcWord, hrest⟩
  split at h
  · cases h
  next d hd =>
    obtain rfl := hspelling (PathDirective.ofWord?_eq_some.1 hd).symm
    split at h
    next more =>
      obtain ⟨line, rest, rfl, hline, hrest⟩ := exists_run (· != '\n') more
      have hupTo : upToNewline (line ++ rest) = line := takeWhile_append_eq_iff.2 ⟨hline, hrest⟩
      obtain ⟨trailing, hsplit, htrailing, hpath⟩ := exists_trimEnd line
      rw [hupTo] at h
      split at h
      · cases h
      next hne =>
        cases h
        refine ⟨'#' :: (d.word.toList ++ ' ' :: (trimEnd line ++ trailing)), rest, ?_, ?_,
          .directive d (by simpa using hne) hpath htrailing ?_, hrest⟩
        · rw [← hsplit]
          simp
        · rw [← hsplit]
          simp
          omega
        · rw [← hsplit]
          intro hmem
          simpa using hline _ hmem
    · cases h

theorem found_text {width : Nat} (h : text cs = .ok (.token t width)) :
    Found last ('"' :: cs) t width := by
  obtain ⟨body, rest, rfl, hbody, hrest⟩ := exists_run (· != '"') cs
  have htake := takeWhile_append_eq_iff.2 ⟨hbody, hrest⟩
  rw [text, htake, List.drop_left] at h
  split at h
  · cases h
  next d rest =>
    cases h
    obtain rfl : d = '"' := by simpa using hrest
    refine ⟨'"' :: (body ++ ['"']), rest, by simp, by simp, .text fun hmem ↦ ?_, trivial⟩
    simpa using hbody _ hmem

theorem hexValue?_lt {n : Nat} (h : hexValue? c = some n) : n < 16 := by
  rw [hexValue?] at h
  split at h
  next hdigit =>
    cases h
    simp only [Char.isDigit, Bool.and_eq_true, decide_eq_true_eq, UInt32.le_iff_toNat_le,
      ge_iff_le] at hdigit
    have h9 : '9'.val.toNat = 57 := rfl
    have h0 : '0'.toNat = 48 := rfl
    have hc : c.toNat = c.val.toNat := rfl
    omega
  split at h
  next hlow =>
    cases h
    have hf : c.toNat ≤ 'f'.toNat := UInt32.le_iff_toNat_le.1 hlow.2
    have h102 : 'f'.toNat = 102 := rfl
    have h97 : 'a'.toNat = 97 := rfl
    omega
  split at h
  next hhigh =>
    cases h
    have hf : c.toNat ≤ 'F'.toNat := UInt32.le_iff_toNat_le.1 hhigh.2
    have h70 : 'F'.toNat = 70 := rfl
    have h65 : 'A'.toNat = 65 := rfl
    omega
  · cases h

/-- A literal of the greatest length allowed still fits into 32 bits. -/
theorem hexNumber_lt {digits : List Char} (hlength : digits.length ≤ maxHexDigits) :
    hexNumber digits < 2 ^ 32 := by
  have hdigit : ∀ c : Char, (hexValue? c).getD 0 < 16 := by
    intro c
    cases hvalue : hexValue? c with
    | none => decide
    | some n => exact hexValue?_lt hvalue
  have hfold : ∀ (digits : List Char) (n : Nat),
      digits.foldl (fun n c ↦ 16 * n + (hexValue? c).getD 0) n + 1 ≤
        (n + 1) * 16 ^ digits.length := by
    intro digits
    induction digits with
    | nil => intro n; simp
    | cons c digits ih =>
      intro n
      have hc := hdigit c
      calc _ ≤ (16 * n + (hexValue? c).getD 0 + 1) * 16 ^ digits.length := ih _
        _ ≤ ((n + 1) * 16) * 16 ^ digits.length := Nat.mul_le_mul_right _ (by omega)
        _ = (n + 1) * 16 ^ (digits.length + 1) := by rw [Nat.pow_succ', Nat.mul_assoc]
  have hpow : 16 ^ digits.length ≤ 16 ^ 8 := Nat.pow_le_pow_right (by decide) hlength
  have hle := hfold digits 0
  rw [Nat.zero_add, Nat.one_mul] at hle
  have h32 : (16 : Nat) ^ 8 = 2 ^ 32 := by decide
  rw [hexNumber]
  omega

theorem found_hex {x : Char} (hx : x = 'x' ∨ x = 'X') {width : Nat}
    (h : hex cs = .ok (.token t width)) : Found last ('0' :: x :: cs) t width := by
  obtain ⟨digits, rest, rfl, hdigits, hrest⟩ := exists_run isHexDigit cs
  have htake := takeWhile_append_eq_iff.2 ⟨hdigits, hrest⟩
  rw [hex, htake] at h
  split at h
  · cases h
  next hlength =>
    cases h
    rw [not_or, Nat.not_lt] at hlength
    have hne : digits ≠ [] := by
      rintro rfl
      exact hlength.1 rfl
    refine ⟨'0' :: x :: digits, rest, by simp, by simp, .hex hx hne hlength.2 hdigits ?_, hrest⟩
    exact UInt32.toNat_ofNat_of_lt' (hexNumber_lt hlength.2)

theorem found_number (hc : c.isDigit = true)
    (hx : ¬ (c = '0' ∧ cs.head?.any (fun x ↦ x == 'x' || x == 'X') = true)) :
    Found last (c :: cs) (.number (decimal (c :: cs)).1) (decimal (c :: cs)).2 := by
  obtain ⟨whole, fraction, rest, hsplit, hdecimal, hrest, hpoint⟩ := exists_decimal hc
  rw [hsplit, decimal_append hdecimal hrest hpoint]
  refine ⟨_, rest, rfl, rfl, .number hdecimal, hrest, fun hmem ↦ ?_, fun hzero ↦ ?_, fun hsign ↦ ?_⟩
  · rw [point_mem_decimalText hdecimal, not_not] at hmem
    exact hpoint hmem
  · rw [hzero, List.singleton_append] at hsplit
    obtain ⟨rfl, rfl⟩ := List.cons.inj hsplit
    exact Bool.eq_false_iff.2 fun h ↦ hx ⟨rfl, h⟩
  · -- a digit is no sign
    exfalso
    have hhead : (decimalText whole fraction ++ rest).head? = some '-' := by
      rw [List.head?_append, hsign]
      rfl
    rw [← hsplit, List.head?_cons, Option.some.injEq] at hhead
    rw [hhead] at hc
    exact absurd hc (by decide)

theorem found_negative (hsign : isSign last cs = true) :
    Found last ('-' :: cs) (.number (-(decimal cs).1)) ((decimal cs).2 + 1) := by
  rw [isSign, Bool.and_eq_true, Bool.not_eq_true'] at hsign
  obtain ⟨hdigit, hlast⟩ := hsign
  cases cs with
  | nil => cases hdigit
  | cons c cs =>
    have hdigit' : c.isDigit = true := hdigit
    obtain ⟨whole, fraction, rest, hsplit, hdecimal, hrest, hpoint⟩ := exists_decimal hdigit'
    rw [hsplit, decimal_append hdecimal hrest hpoint]
    refine ⟨'-' :: decimalText whole fraction, rest, rfl, rfl, .negative hdecimal, hrest,
      fun hmem ↦ ?_, fun hzero ↦ ?_, fun _ ↦ hlast⟩
    · rw [List.mem_cons, not_or, point_mem_decimalText hdecimal, not_not] at hmem
      exact hpoint hmem.2
    · exact absurd (List.cons.inj hzero).1 (by decide)

theorem found_reference (hcs : cs.head?.any isWordStart = true) :
    Found last ('&' :: cs) (.reference (String.ofList (cs.takeWhile isWordChar)))
      ((cs.takeWhile isWordChar).length + 1) := by
  obtain ⟨letters, rest, rfl, hletters, hrest⟩ := exists_run isWordChar cs
  have hhead : letters.head?.any isWordStart = true := by
    cases letters with
    | nil =>
      cases rest with
      | nil => cases hcs
      | cons d rest =>
        rw [noneNext_cons, isWordChar_of_isWordStart hcs] at hrest
        cases hrest
    | cons d letters => exact hcs
  rw [takeWhile_append_eq_iff.2 ⟨hletters, hrest⟩]
  refine ⟨'&' :: letters, rest, rfl, rfl, ?_, hrest⟩
  have hspells : Spells (.reference (String.ofList letters))
      ('&' :: (String.ofList letters).toList) :=
    .reference (by rwa [String.toList_ofList])
      fun d hd ↦ hletters d (by rwa [String.toList_ofList] at hd)
  rwa [String.toList_ofList] at hspells

/-- A mark is found where no other form of a piece starts. -/
theorem found_punct {width : Nat} (hslash : c = '/' → NoneNext (fun d ↦ d == '/' || d == '*') cs)
    (hminus : c = '-' → isSign last cs = false) (hampersand : c = '&' → NoneNext isWordStart cs)
    (h : punct c cs = .ok (.token t width)) : Found last (c :: cs) t width := by
  rw [punct] at h
  split at h
  next p hp =>
    cases h
    have hprefix : p.spelling.toList <+: c :: cs := by simpa using List.find?_some hp
    obtain ⟨rest, hrest⟩ := hprefix
    have hspelling : ∀ {d : Char}, p.spelling.toList = [d] → c = d ∧ cs = rest := by
      intro d hd
      rw [hd, List.singleton_append] at hrest
      obtain ⟨rfl, rfl⟩ := List.cons.inj hrest
      exact ⟨rfl, rfl⟩
    refine ⟨p.spelling.toList, rest, hrest.symm, rfl, .punct p, by rwa [hrest], ?_, ?_, ?_⟩
    · rintro rfl
      obtain ⟨rfl, rfl⟩ := hspelling (d := '/') (by decide)
      exact hslash rfl
    · rintro rfl
      obtain ⟨rfl, rfl⟩ := hspelling (d := '-') (by decide)
      exact hminus rfl
    · rintro rfl
      obtain ⟨rfl, rfl⟩ := hspelling (d := '&') (by decide)
      exact hampersand rfl
  · cases h

theorem found_of_read {width : Nat} (h : read last c cs = .ok (.token t width)) :
    Found last (c :: cs) t width := by
  have hform := form_read last c cs
  generalize read last c cs = result at h hform
  cases hform with
  | blank | line | comment | openComment => cases h
  | directive => exact found_directive h
  | text => exact found_text h
  | negative hsign =>
    cases h
    exact found_negative hsign
  | reference hstart =>
    cases h
    exact found_reference hstart
  | hex hx =>
    cases cs with
    | nil => cases hx
    | cons x cs => exact found_hex (by simpa using hx) h
  | number hdigit hx =>
    cases h
    exact found_number hdigit hx
  | word hstart =>
    rw [Except.ok.injEq] at h
    exact found_word hstart h
  | punct hline hblock hminus hampersand =>
    refine found_punct (fun hc ↦ ?_) (fun hc ↦ ?_) (fun hc ↦ ?_) h
    · cases cs with
      | nil => exact noneNext_nil _
      | cons d cs =>
        rw [noneNext_cons, Bool.or_eq_false_iff, beq_eq_false_iff_ne, beq_eq_false_iff_ne]
        exact ⟨fun hd ↦ hline ⟨hc, congrArg some hd⟩, fun hd ↦ hblock ⟨hc, congrArg some hd⟩⟩
    · exact Bool.eq_false_iff.2 fun hsign ↦ hminus ⟨hc, hsign⟩
    · exact Bool.eq_false_iff.2 fun hstart ↦ hampersand ⟨hc, hstart⟩

/-! ## Gaps -/

/-- The two slashes of a line comment and what stands behind them, up to the end of the line. -/
private theorem gap_line (hnext : cs.head? = some '/') :
    ∃ front rest, '/' :: cs = front ++ rest ∧ front.length = 1 + (upToNewline cs).length ∧
      Gap rest front := by
  obtain ⟨line, rest, rfl, hline, hrest⟩ := exists_run (· != '\n') cs
  have hupTo : upToNewline (line ++ rest) = line := takeWhile_append_eq_iff.2 ⟨hline, hrest⟩
  rw [hupTo]
  cases line with
  | nil =>
    -- the second slash belongs to the line
    rw [NoneNext, ← List.nil_append rest, hnext] at hrest
    cases hrest
  | cons d body =>
    obtain rfl : d = '/' := by simpa using hnext
    refine ⟨'/' :: '/' :: body, rest, rfl, by simp; omega, .line (fun hmem ↦ ?_) hrest⟩
    exact absurd (hline _ (List.mem_cons_of_mem _ hmem)) (by decide)

private theorem gap_comment {width : Nat} (hnext : cs.head? = some '*')
    (hwidth : commentWidth? 2 cs.tail = some width) :
    ∃ front rest, '/' :: cs = front ++ rest ∧ front.length = width ∧ Gap rest front := by
  cases cs with
  | nil => cases hnext
  | cons d cs =>
    obtain rfl : d = '*' := by simpa using hnext
    obtain ⟨body, rest, hsplit, rfl, hbody⟩ := commentWidth?_eq_some.1 hwidth
    refine ⟨'/' :: '*' :: (body ++ ['*', '/']), rest, ?_, by simp; omega, .block hbody⟩
    rw [List.tail_cons] at hsplit
    rw [hsplit]
    simp

theorem gap_of_read {width : Nat} (h : read last c cs = .ok (.gap width)) :
    ∃ front rest, c :: cs = front ++ rest ∧ front.length = width ∧ Gap rest front := by
  have hform := form_read last c cs
  generalize read last c cs = result at h hform
  cases hform with
  | blank hblank =>
    cases h
    exact ⟨[c], cs, rfl, rfl, .blank hblank⟩
  | line hnext =>
    cases h
    exact gap_line hnext
  | comment hnext hwidth =>
    cases h
    exact gap_comment hnext hwidth
  -- everything else is a token or a problem
  | directive =>
    rw [directive] at h
    dsimp only at h
    split at h
    · cases h
    split at h
    · cases h
    split at h
    · cases h
    split at h
    · split at h <;> cases h
    · cases h
  | text =>
    rw [text] at h
    split at h <;> cases h
  | hex =>
    rw [hex] at h
    split at h <;> cases h
  | word =>
    rw [word] at h
    split at h
    · split at h <;> cases h
    · cases h
    · cases h
  | punct =>
    rw [punct] at h
    split at h <;> cases h
  | openComment | negative | reference | number => cases h

end Piece

end CharacterScript
