import CharacterScript.Proofs.Lexing.Forms

/-!
# Reading what is written

The other side of the forms of a piece: a token that is written, and does not go on in what stands
behind it, is read (`Piece.read_of_spells`), and what can be dropped is dropped
(`Piece.read_of_gap`). What follows a piece enters through its first few characters only, so a piece
can be moved to another place of a text, or into another text, by comparing these.

## Both directions

With this the forms are not only what is read but all that can be read: a text can be written
token by token and is known to be read like that. There is one lemma for each form, and each shows
that the tests in front of the one it is about fail, because the first character is of another
class.
-/

namespace CharacterScript

namespace Piece

variable {last : Option Token} {t : Token} {c : Char} {cs front rest : List Char}

/-! ## Reading what is written

The class of the first character settles most of the tests at once, so the lemmas start with what
follows from it. -/

private theorem ne_of_class {p : Char → Bool} {d : Char} (hc : p c = true) (hd : p d = false) :
    c ≠ d := by
  rintro rfl
  rw [hc] at hd
  cases hd

private theorem isBlank_eq_false {p : Char → Bool} (hc : p c = true)
    (hp : p ' ' = false ∧ p '\t' = false ∧ p '\n' = false ∧ p '\r' = false ∧ p '\x0c' = false) :
    isBlank c = false := by
  simp only [isBlank, Bool.or_eq_false_iff, beq_eq_false_iff_ne]
  exact ⟨⟨⟨⟨ne_of_class hc hp.1, ne_of_class hc hp.2.1⟩, ne_of_class hc hp.2.2.1⟩,
    ne_of_class hc hp.2.2.2.1⟩, ne_of_class hc hp.2.2.2.2⟩

theorem isDigit_eq_false (hc : isWordStart c = true) : c.isDigit = false := by
  rw [Bool.eq_false_iff]
  intro hdigit
  unfold isWordStart Char.isAlpha Char.isUpper Char.isLower at hc
  unfold Char.isDigit at hdigit
  simp only [Bool.or_eq_true, Bool.and_eq_true, decide_eq_true_eq, UInt32.le_iff_toNat_le,
    ge_iff_le, beq_iff_eq] at hc hdigit
  have h9 : '9'.val.toNat = 57 := rfl
  have hA : 'A'.val.toNat = 65 := rfl
  have ha : 'a'.val.toNat = 97 := rfl
  rcases hc with (hc | hc) | rfl
  · omega
  · omega
  · exact absurd hdigit (by decide)

theorem read_of_isWordStart (hc : isWordStart c = true) :
    read last c cs = .ok (word (c :: cs)) := by
  have hblank : isBlank c = false := isBlank_eq_false hc (by decide)
  have hdigit : c.isDigit = false := isDigit_eq_false hc
  have hslash : c ≠ '/' := ne_of_class hc (by decide)
  have hhash : c ≠ '#' := ne_of_class hc (by decide)
  have hquote : c ≠ '"' := ne_of_class hc (by decide)
  have hminus : c ≠ '-' := ne_of_class hc (by decide)
  have hampersand : c ≠ '&' := ne_of_class hc (by decide)
  have hzero : c ≠ '0' := ne_of_class hc (by decide)
  simp [read, hblank, hdigit, hslash, hhash, hquote, hminus, hampersand, hzero, hc]

theorem read_of_isDigit (hc : c.isDigit = true)
    (hx : ¬ (c = '0' ∧ cs.head?.any (fun x ↦ x == 'x' || x == 'X') = true)) :
    read last c cs = .ok (.token (.number (decimal (c :: cs)).1) (decimal (c :: cs)).2) := by
  have hblank : isBlank c = false := isBlank_eq_false hc (by decide)
  have hslash : c ≠ '/' := ne_of_class hc (by decide)
  have hhash : c ≠ '#' := ne_of_class hc (by decide)
  have hquote : c ≠ '"' := ne_of_class hc (by decide)
  have hminus : c ≠ '-' := ne_of_class hc (by decide)
  have hampersand : c ≠ '&' := ne_of_class hc (by decide)
  rw [read, if_neg (by rw [hblank]; decide), if_neg (by simp [hslash]), if_neg (by simp [hslash]),
    if_neg hhash, if_neg hquote, if_neg (by simp [hminus]), if_neg (by simp [hampersand]),
    if_neg hx, if_pos hc]

/-- The first character of a mark starts nothing else but comments, numbers and references. -/
theorem read_of_punct {p : Punct} (hp : p.spelling.toList = c :: front)
    (h : Token.Ends last (c :: front) rest (.punct p)) :
    read last c (front ++ rest) = .ok (.token (.punct p) (front.length + 1)) := by
  obtain ⟨hread, hslash, hminus, hampersand⟩ := h
  have hclass : isBlank c = false ∧ c ≠ '#' ∧ c ≠ '"' ∧ c ≠ '0' ∧ c.isDigit = false ∧
      isWordStart c = false := by
    cases p <;> (cases hp; decide)
  have hcomment : c = '/' → NoneNext (fun d ↦ d == '/' || d == '*') (front ++ rest) := by
    rintro rfl
    cases p <;> cases hp
    exact hslash rfl
  have hsign : ¬ (c = '-' ∧ isSign last (front ++ rest) = true) := by
    rintro ⟨rfl, hsign⟩
    cases p <;> cases hp
    · cases hsign
    · rw [List.nil_append, hminus rfl] at hsign
      cases hsign
  have hreference : ¬ (c = '&' ∧ (front ++ rest).head?.any isWordStart = true) := by
    rintro ⟨rfl, hstart⟩
    cases p <;> cases hp
    · cases hstart
    · rw [List.nil_append, hampersand rfl] at hstart
      cases hstart
  have hline : ∀ d, d = '/' ∨ d = '*' → ¬ (c = '/' ∧ (front ++ rest).head? = some d) := by
    rintro d hd ⟨hc, hhead⟩
    have hnone := hcomment hc
    rw [NoneNext, hhead] at hnone
    rcases hd with rfl | rfl <;> cases hnone
  rw [read, if_neg (by rw [hclass.1]; decide), if_neg (hline _ (.inl rfl)),
    if_neg (hline _ (.inr rfl)), if_neg hclass.2.1, if_neg hclass.2.2.1, if_neg hsign,
    if_neg hreference, if_neg (by simp [hclass.2.2.2.1]), if_neg (by simp [hclass.2.2.2.2.1]),
    if_neg (by simp [hclass.2.2.2.2.2]), punct]
  rw [List.cons_append] at hread
  rw [hread]
  dsimp only
  rw [hp, List.length_cons]

/-- Where a word starts, the whole word is read. -/
private theorem read_word {letters : List Char} (hfront : letters = c :: front)
    (hstart : isWordStart c = true) :
    read last c (front ++ rest) = .ok (word (letters ++ rest)) := by
  rw [read_of_isWordStart hstart, hfront, List.cons_append]

theorem read_of_keyword {k : Keyword} (hk : k ∈ Keyword.words)
    (hfront : k.spelling.toList = c :: front)
    (h : Token.Ends last (c :: front) rest (.keyword k)) :
    read last c (front ++ rest) = .ok (.token (.keyword k) (front.length + 1)) := by
  have hnext : NoneNext isWordChar rest := by
    cases k with
    | else_ => exact h.1
    | _ => exact h
  have hclass : ∀ k ∈ Keyword.words, k.spelling.toList.head?.any isWordStart = true ∧
      k.spelling.toList.all isWordChar = true := by
    decide
  obtain ⟨hstart, hletters⟩ := hclass k hk
  rw [List.all_eq_true] at hletters
  rw [hfront] at hstart
  have hword : Keyword.ofWord? (String.ofList k.spelling.toList) = some k := by
    rw [String.ofList_toList]
    exact Keyword.ofWord?_eq_some.2 ⟨hk, rfl⟩
  rw [read_word hfront hstart, word, takeWhile_append_eq_iff.2 ⟨hletters, hnext⟩, List.drop_left,
    hword, hfront]
  cases k with
  | else_ =>
    dsimp only
    rw [h.2]
    rfl
  | _ => rfl

theorem read_of_elif {blanks : List Char} (hne : blanks ≠ [])
    (hblanks : ∀ d ∈ blanks, d = ' ' ∨ d = '\t')
    (hfront : "else".toList ++ (blanks ++ "if".toList) = c :: front)
    (hrest : NoneNext isWordChar rest) :
    read last c (front ++ rest) = .ok (.token (.keyword .elif) (front.length + 1)) := by
  have hnext : NoneNext isWordChar (blanks ++ 'i' :: 'f' :: rest) := by
    cases blanks with
    | nil => exact absurd rfl hne
    | cons d blanks =>
      rcases hblanks d List.mem_cons_self with rfl | rfl <;> exact noneNext_cons.2 rfl
  have hmore : elifWidth? (blanks ++ 'i' :: 'f' :: rest) = some (blanks.length + 2) :=
    elifWidth?_eq_some.2 ⟨blanks, rest, hne, hblanks, rfl, hrest, rfl⟩
  have helse : Keyword.ofWord? (String.ofList "else".toList) = some .else_ := by decide
  have hstart : isWordStart c = true := by
    obtain ⟨rfl, -⟩ := List.cons.inj hfront
    decide
  have hsplit : "else".toList ++ (blanks ++ "if".toList) ++ rest
      = "else".toList ++ (blanks ++ 'i' :: 'f' :: rest) := by
    simp
  have hletters : ∀ d ∈ "else".toList, isWordChar d = true := List.all_eq_true.1 rfl
  rw [read_word hfront hstart, hsplit, word, takeWhile_append_eq_iff.2 ⟨hletters, hnext⟩,
    List.drop_left, helse]
  dsimp only
  rw [hmore, ← List.length_cons, ← hfront]
  dsimp only
  rw [List.length_append, List.length_append]
  rfl

theorem read_of_name {s : String} (h : IsIdentifier s) (hfront : s.toList = c :: front)
    (hrest : NoneNext isWordChar rest) :
    read last c (front ++ rest) = .ok (.token (.name s) (front.length + 1)) := by
  have hstart : isWordStart c = true := by
    have hhead := h.start
    rwa [hfront] at hhead
  rw [read_word hfront hstart, word, takeWhile_append_eq_iff.2 ⟨h.isWord, hrest⟩,
    String.ofList_toList, h.notKeyword, hfront]
  rfl

private theorem read_hash : read last '#' cs = directive cs := by
  rw [read, if_neg (by decide), if_neg (by simp), if_neg (by simp), if_pos rfl]

theorem read_of_directive {d : PathDirective} {path trailing : List Char} (hne : path ≠ [])
    (hpath : path.getLast?.any isSpace = false) (htrailing : ∀ e ∈ trailing, isSpace e = true)
    (hline : '\n' ∉ path ++ trailing) (hrest : NoneNext (· != '\n') rest) :
    read last '#' (d.word.toList ++ ' ' :: (path ++ trailing) ++ rest)
      = .ok (.token (.directive d (String.ofList path))
          ((d.word.toList ++ ' ' :: (path ++ trailing)).length + 1)) := by
  have hletters : ∀ e ∈ d.word.toList, isWordChar e = true :=
    List.all_eq_true.1 (by cases d <;> rfl)
  have hdefine : (String.ofList d.word.toList == "define") = false := by cases d <;> decide
  have hcalc : (String.ofList d.word.toList == "calc") = false := by cases d <;> decide
  have hword : PathDirective.ofWord? (String.ofList d.word.toList) = some d :=
    PathDirective.ofWord?_eq_some.2 String.ofList_toList.symm
  have hupTo : upToNewline (path ++ trailing ++ rest) = path ++ trailing :=
    takeWhile_append_eq_iff.2 ⟨bne_of_not_mem hline, hrest⟩
  have hblank : NoneNext isWordChar (' ' :: (path ++ trailing ++ rest)) := noneNext_cons.2 rfl
  rw [read_hash, List.append_assoc, List.cons_append, directive,
    takeWhile_append_eq_iff.2 ⟨hletters, hblank⟩, List.drop_left, hdefine, hcalc, hword]
  simp only [Bool.false_eq_true, if_false]
  rw [hupTo, trimEnd_append hpath htrailing, if_neg (by simpa using hne)]
  simp only [List.length_append, List.length_cons, Nat.add_assoc]

private theorem read_quote : read last '"' cs = text cs := by
  rw [read, if_neg (by decide), if_neg (by simp), if_neg (by simp), if_neg (by decide), if_pos rfl]

theorem read_of_text {body : List Char} (h : '"' ∉ body) :
    read last '"' (body ++ ['"'] ++ rest)
      = .ok (.token (.text (String.ofList body)) ((body ++ ['"']).length + 1)) := by
  have htake : (body ++ '"' :: rest).takeWhile (· != '"') = body :=
    takeWhile_append_eq_iff.2 ⟨bne_of_not_mem h, noneNext_cons.2 rfl⟩
  rw [read_quote, List.append_assoc, List.singleton_append, text, htake, List.drop_left]
  simp

theorem read_of_hex {value : UInt32} {x : Char} {digits : List Char} (hx : x = 'x' ∨ x = 'X')
    (hne : digits ≠ []) (hlength : digits.length ≤ maxHexDigits)
    (hdigits : ∀ d ∈ digits, isHexDigit d = true) (hvalue : value.toNat = hexNumber digits)
    (hrest : NoneNext isHexDigit rest) :
    read last '0' (x :: digits ++ rest)
      = .ok (.token (.hex value) ((x :: digits).length + 1)) := by
  have hnext : (x :: (digits ++ rest)).head?.any (fun x ↦ x == 'x' || x == 'X') = true := by
    simpa using hx
  have hcount : ¬ (digits.length = 0 ∨ maxHexDigits < digits.length) := by
    rw [not_or, Nat.not_lt]
    exact ⟨fun h ↦ hne (List.eq_nil_of_length_eq_zero h), hlength⟩
  rw [List.cons_append, read, if_neg (by decide), if_neg (by simp), if_neg (by simp),
    if_neg (by decide), if_neg (by decide), if_neg (by simp), if_neg (by simp),
    if_pos ⟨rfl, hnext⟩, List.tail_cons, hex, takeWhile_append_eq_iff.2 ⟨hdigits, hrest⟩,
    if_neg hcount, ← hvalue, UInt32.ofNat_toNat]
  rfl

theorem read_of_reference {s : String} (hstart : s.toList.head?.any isWordStart = true)
    (h : IsWord s) (hrest : NoneNext isWordChar rest) :
    read last '&' (s.toList ++ rest) = .ok (.token (.reference s) (s.toList.length + 1)) := by
  have hnext : (s.toList ++ rest).head?.any isWordStart = true := by
    cases hs : s.toList with
    | nil =>
      rw [hs] at hstart
      cases hstart
    | cons d letters => rwa [hs] at hstart
  rw [read, if_neg (by decide), if_neg (by simp), if_neg (by simp), if_neg (by decide),
    if_neg (by decide), if_neg (by simp), if_pos ⟨rfl, hnext⟩,
    takeWhile_append_eq_iff.2 ⟨h, hrest⟩]
  dsimp only
  rw [String.ofList_toList]

theorem IsDecimal.exists_cons {whole fraction : List Char} (h : IsDecimal whole fraction) :
    ∃ d more, decimalText whole fraction = d :: more ∧ d.isDigit = true := by
  cases hwhole : whole with
  | nil => exact absurd hwhole h.whole_ne_nil
  | cons d more =>
    have hd := h.whole d (by rw [hwhole]; exact List.mem_cons_self)
    cases fraction with
    | nil => exact ⟨d, more, rfl, hd⟩
    | cons e fraction => exact ⟨d, _, rfl, hd⟩

theorem read_of_number {whole fraction : List Char} (h : IsDecimal whole fraction)
    (hfront : decimalText whole fraction = c :: front) (hrest : NoneNext Char.isDigit rest)
    (hpoint : fraction = [] → ∀ more, rest = '.' :: more → NoneNext Char.isDigit more)
    (hzero : c :: front = ['0'] → NoneNext (fun x ↦ x == 'x' || x == 'X') rest) :
    read last c (front ++ rest)
      = .ok (.token (.number (decimalValue whole fraction)) (front.length + 1)) := by
  obtain ⟨d, more, hcons, hd⟩ := IsDecimal.exists_cons h
  obtain ⟨rfl, rfl⟩ := List.cons.inj (hcons.symm.trans hfront)
  have hx : ¬ (d = '0' ∧ (more ++ rest).head?.any (fun x ↦ x == 'x' || x == 'X') = true) := by
    rintro ⟨rfl, hx⟩
    cases more with
    | nil => exact absurd hx (by rw [List.nil_append, hzero rfl]; decide)
    | cons e more =>
      -- what follows the first digit is a digit or the point
      have he : (e.isDigit || e == '.') = true := h.of_mem e (by simp [hcons])
      simp only [List.cons_append, List.head?_cons, Option.any_some, Bool.or_eq_true,
        beq_iff_eq] at hx
      rcases hx with rfl | rfl <;> exact absurd he (by decide)
  rw [read_of_isDigit hd hx, ← List.cons_append, ← hcons, decimal_append h hrest hpoint, hcons,
    List.length_cons]

theorem read_of_negative {whole fraction : List Char} (h : IsDecimal whole fraction)
    (hrest : NoneNext Char.isDigit rest)
    (hpoint : fraction = [] → ∀ more, rest = '.' :: more → NoneNext Char.isDigit more)
    (hlast : last.any Token.endsOperand = false) :
    read last '-' (decimalText whole fraction ++ rest)
      = .ok (.token (.number (-decimalValue whole fraction))
          ((decimalText whole fraction).length + 1)) := by
  obtain ⟨d, more, hcons, hd⟩ := IsDecimal.exists_cons h
  have hsign : isSign last (decimalText whole fraction ++ rest) = true := by
    rw [isSign, hcons, hlast]
    simpa using hd
  rw [read, if_neg (by decide), if_neg (by simp), if_neg (by simp), if_neg (by decide),
    if_neg (by decide), if_pos ⟨rfl, hsign⟩, decimal_append h hrest hpoint]

/-- What is written, and not written on, is read. -/
theorem read_of_spells (hspells : Spells t (c :: front)) (hends : t.Ends last (c :: front) rest) :
    read last c (front ++ rest) = .ok (.token t (front.length + 1)) := by
  generalize hall : c :: front = all at hspells hends
  have hpoint : ∀ {whole fraction : List Char}, IsDecimal whole fraction →
      ('.' ∉ decimalText whole fraction → ∀ more, rest = '.' :: more → NoneNext Char.isDigit more) →
      fraction = [] → ∀ more, rest = '.' :: more → NoneNext Char.isDigit more := by
    intro whole fraction h hmem hnil
    exact hmem fun hpoint ↦ (point_mem_decimalText h).1 hpoint hnil
  cases hspells with
  | keyword hk => exact read_of_keyword hk hall.symm (hall ▸ hends)
  | elif hne hblanks => exact read_of_elif hne hblanks hall.symm hends
  | punct p => exact read_of_punct hall.symm (hall ▸ hends)
  | defineWord =>
    cases hall
    have hletters : ∀ d ∈ "define".toList, isWordChar d = true := List.all_eq_true.1 rfl
    rw [read_hash, directive, takeWhile_append_eq_iff.2 ⟨hletters, hends⟩]
    rfl
  | calcWord =>
    cases hall
    have hletters : ∀ d ∈ "calc".toList, isWordChar d = true := List.all_eq_true.1 rfl
    rw [read_hash, directive, takeWhile_append_eq_iff.2 ⟨hletters, hends⟩]
    rfl
  | directive d hne hpath htrailing hline =>
    cases hall
    exact read_of_directive hne hpath htrailing hline hends
  | number h =>
    refine read_of_number h hall.symm hends.1 (hpoint h hends.2.1) fun hzero ↦ ?_
    exact hends.2.2.1 (hall.symm.trans hzero)
  | negative h =>
    cases hall
    refine read_of_negative h hends.1 (hpoint h fun hmem ↦ hends.2.1 ?_) (hends.2.2.2 rfl)
    simpa using hmem
  | hex hx hne hlength hdigits hvalue =>
    cases hall
    exact read_of_hex hx hne hlength hdigits hvalue hends
  | text h =>
    cases hall
    exact read_of_text h
  | name h => exact read_of_name h hall.symm hends
  | reference hstart h =>
    cases hall
    exact read_of_reference hstart h hends

/-! ## Reading what is dropped -/

theorem read_of_gap (h : Gap rest (c :: front)) :
    read last c (front ++ rest) = .ok (.gap (front.length + 1)) := by
  generalize hall : c :: front = all at h
  cases h with
  | blank hblank =>
    cases hall
    rw [read, if_pos hblank]
    rfl
  | @line body hbody hrest =>
    cases hall
    have hline : '\n' ∉ '/' :: body := List.not_mem_cons_of_ne_of_not_mem (by decide) hbody
    have hupTo : upToNewline ('/' :: body ++ rest) = '/' :: body :=
      takeWhile_append_eq_iff.2 ⟨bne_of_not_mem hline, hrest⟩
    rw [read, if_neg (by decide), if_pos ⟨rfl, rfl⟩, hupTo, Nat.add_comm]
  | @block body hbody =>
    cases hall
    have hwidth : commentWidth? 2 (body ++ ['*', '/'] ++ rest) = some (2 + body.length + 2) :=
      commentWidth?_eq_some.2 ⟨body, rest, by simp, rfl, hbody⟩
    rw [List.cons_append, read, if_neg (by decide), if_neg (by simp), if_pos ⟨rfl, rfl⟩,
      List.tail_cons, hwidth]
    simp
    omega

end Piece

end CharacterScript
