import CharacterScript.Proofs.Grammar.Reading
import CharacterScript.Proofs.Lexing.Splicing
import CharacterScript.Proofs.Words
import Mathlib.Data.List.Chain
import Mathlib.Data.List.Induction

/-!
# The names of an expression are words of its text

A name may stand right behind a number, as in `1X`, and is then no word of the text. In an
expression it never does: a mark or nothing comes behind a number. So a text without a certain word
has no such name, and neither have the calculations in it.

## Why it needs a proof

Words are found in the characters of a text, by runs, and names in its lexemes. A run may hold
more than one lexeme: `1X` is one word, and its lexemes are two. Between parts of an expression
there is always a mark, so runs and names coincide there, and this is shown for all phrases at
once (`Phrase.parted`).
-/

namespace CharacterScript

variable {last last' : Option Token} {t : Token} {offset : Nat}
variable {front rest text : List Char} {ts : List Lexeme}

/-! ## Words at their places -/

theorem isWordChar_eq_false_of_isSpace {c : Char} (h : isSpace c = true) :
    isWordChar c = false := by
  rw [Bool.eq_false_iff]
  intro hword
  unfold isWordChar Char.isAlphanum Char.isAlpha Char.isUpper Char.isLower Char.isDigit at hword
  simp only [Bool.or_eq_true, Bool.and_eq_true, decide_eq_true_eq, UInt32.le_iff_toNat_le,
    ge_iff_le, beq_iff_eq] at hword
  simp only [isSpace, spaceRanges, List.any_cons, List.any_nil, Bool.or_false, Bool.or_eq_true,
    Bool.and_eq_true, decide_eq_true_eq, Char.toNat] at h
  have hA : 'A'.val.toNat = 65 := rfl
  have hZ : 'Z'.val.toNat = 90 := rfl
  have ha : 'a'.val.toNat = 97 := rfl
  have hz : 'z'.val.toNat = 122 := rfl
  have h0 : '0'.val.toNat = 48 := rfl
  have h9 : '9'.val.toNat = 57 := rfl
  rcases hword with hword | rfl
  · omega
  · revert h
    decide

namespace Word

/-- A stretch of word characters with none next to it. -/
theorem mem_runs_of_alone {before w after : List Char}
    (hbefore : before.getLast?.any isWordChar = false) (hw : IsRun w) (hne : w ≠ [])
    (hafter : NoneNext isWordChar after) : w ∈ runs (before ++ (w ++ after)) := by
  have hbehind : w ∈ runs (w ++ after) := by
    cases after with
    | nil =>
      rw [List.append_nil]
      exact (mem_runs_run hw).2 ⟨rfl, hne⟩
    | cons c after =>
      rw [runs_append (noneNext_cons.1 hafter)]
      exact List.mem_append_left _ ((mem_runs_run hw).2 ⟨rfl, hne⟩)
  cases before using List.reverseRecOn with
  | nil => exact hbehind
  | append_singleton before c =>
    rw [List.getLast?_concat, Option.any_some] at hbefore
    rw [List.append_assoc, List.singleton_append, runs_append hbefore]
    exact List.mem_append_right _ hbehind

theorem runs_trim (cs : List Char) : runs (trim cs) = runs cs := by
  have hstart : ∀ cs, runs (trimStart cs) = runs cs := by
    intro cs
    induction cs with
    | nil => rfl
    | cons c cs ih =>
      rw [trimStart, List.dropWhile_cons]
      split
      next hc =>
        rw [← List.nil_append (c :: cs), runs_append (isWordChar_eq_false_of_isSpace hc)]
        exact ih
      · rfl
  have hend : ∀ cs, runs (trimEnd cs) = runs cs := by
    intro cs
    induction cs using List.reverseRecOn with
    | nil => rfl
    | append_singleton cs c ih =>
      rw [trimEnd, List.reverse_append, List.reverse_singleton, List.singleton_append,
        List.dropWhile_cons]
      split
      next hc =>
        rw [runs_append (isWordChar_eq_false_of_isSpace hc)]
        exact ih.trans (List.append_nil _).symm
      · rw [List.reverse_cons, List.reverse_reverse]
  rw [trim, hend, hstart]

end Word

/-! ## What stands in front of a name

If a word character stands right in front of a name, it belongs to a number, since a name would
have gone on. -/

/-- Numbers need not end where a word does. -/
def Token.isNumeral : Token → Bool
  | .number _ | .hex _ => true
  | _ => false

theorem Pieces.last_eq (h : Pieces rest last offset text ts last') :
    last' = (ts.getLast?.map (·.token)).or last := by
  induction h with
  | done => rfl
  | gap _ _ ih => exact ih
  | @token _ _ _ t _ _ ts _ _ _ ih =>
    rw [ih]
    cases ts using List.reverseRecOn with
    | nil => rfl
    | append_singleton ts l =>
      rw [← List.cons_append, List.getLast?_concat, List.getLast?_concat]
      rfl

theorem Pieces.last_of_nil (h : Pieces rest last offset [] ts last') : last' = last := by
  generalize htext : ([] : List Char) = text at h
  cases h with
  | done => rfl
  | gap hgap => exact absurd (List.append_eq_nil_iff.1 htext.symm).1 hgap.ne_nil
  | token hspells => exact absurd (List.append_eq_nil_iff.1 htext.symm).1 hspells.ne_nil

/-- A text that starts with a word. -/
def StartsWord (rest : List Char) : Prop :=
  rest.head?.any isWordStart = true

theorem StartsWord.not_noneNext {p : Char → Bool} (hrest : StartsWord rest)
    (hp : ∀ c, isWordStart c = true → p c = true) : ¬ NoneNext p rest := by
  intro hnone
  cases rest with
  | nil => cases hrest
  | cons c rest =>
    rw [noneNext_cons, hp c hrest] at hnone
    cases hnone

theorem StartsWord.not_lineEnd (hrest : StartsWord rest) : ¬ NoneNext (· != '\n') rest := by
  refine hrest.not_noneNext fun c hc ↦ bne_iff_ne.2 ?_
  rintro rfl
  exact absurd hc (by decide)

/-- A gap in front of a word does not end in the middle of one. -/
theorem Gap.getLast_eq_false (h : Gap rest front) (hrest : StartsWord rest) :
    front.getLast?.any isWordChar = false := by
  cases h with
  | blank hblank => exact isWordChar_eq_false_of_isSpace (isSpace_of_isBlank hblank)
  | line hbody hend => exact absurd hend hrest.not_lineEnd
  | block hbody =>
    rw [show ∀ body : List Char, '/' :: '*' :: (body ++ ['*', '/'])
      = ('/' :: '*' :: (body ++ ['*'])) ++ ['/'] by simp, List.getLast?_concat]
    decide

/-- A token in front of a word does not end in the middle of one, unless it is a number. -/
theorem Spells.getLast_eq_false (h : Spells t front) (hends : t.Ends last front rest)
    (ht : t.isNumeral = false) (hrest : StartsWord rest) :
    front.getLast?.any isWordChar = false := by
  have hnext : ¬ NoneNext isWordChar rest :=
    hrest.not_noneNext fun _ hc ↦ Piece.isWordChar_of_isWordStart hc
  cases h with
  | @keyword k hk =>
    cases k with
    | else_ => exact absurd hends.1 hnext
    | _ => exact absurd hends hnext
  | elif | name | reference | defineWord | calcWord => exact absurd hends hnext
  | punct p => cases p <;> decide
  | directive => exact absurd hends hrest.not_lineEnd
  | number | negative | hex => cases ht
  | text =>
    rw [← List.cons_append, List.getLast?_concat]
    decide

theorem Pieces.getLast_eq_false (h : Pieces rest last offset text ts last')
    (hrest : StartsWord rest) (hlast : last'.any Token.isNumeral = false) :
    text.getLast?.any isWordChar = false := by
  induction h with
  | done => rfl
  | @gap _ _ _ front more _ hgap hmore ih =>
    cases more with
    | nil =>
      rw [List.append_nil]
      exact hgap.getLast_eq_false hrest
    | cons c more =>
      rw [List.getLast?_append_cons]
      exact ih hlast
  | @token _ _ _ t front more _ hspells hends hmore ih =>
    cases more with
    | nil =>
      rw [List.append_nil]
      rw [hmore.last_of_nil] at hlast
      exact hspells.getLast_eq_false hends hlast hrest
    | cons c more =>
      rw [List.getLast?_append_cons]
      exact ih hlast

/-! ## Numbers and names are apart

Two lexemes next to each other in an expression are never a number and a name. -/

/-- No name stands behind a number. -/
def Parted (ls : List Lexeme) : Prop :=
  ls.IsChain fun a b ↦ a.token.isNumeral = true → ∀ s, b.token ≠ .name s

namespace Parted

variable {ls ms : List Lexeme}

/-- A mark keeps what is on its two sides apart. -/
theorem append_punct (h : Parted ls) (h' : Parted ms) (p : Punct) (span : Span) :
    Parted (ls ++ p.at span :: ms) := by
  have hcons : Parted (p.at span :: ms) := List.isChain_cons.2 ⟨nofun, h'⟩
  refine List.isChain_append.2 ⟨h, hcons, fun _ _ b hb _ s ↦ ?_⟩
  cases hb
  nofun

theorem punct_cons (h : Parted ms) (p : Punct) (span : Span) : Parted (p.at span :: ms) :=
  append_punct List.isChain_nil h p span

theorem singleton (l : Lexeme) : Parted [l] :=
  List.isChain_singleton _

end Parted

theorem CallHead.parted {ms : List Lexeme} (head : CallHead) (h : Parted ms) :
    Parted (head.lexemes ++ ms) := by
  obtain ⟨collapse, name, nameSpan, opening⟩ := head
  cases collapse with
  | none => exact (Parted.singleton ⟨.name name, nameSpan⟩).append_punct h .openParen opening
  | some span =>
    have hhead : Parted [⟨.keyword .collapse, span⟩, ⟨.name name, nameSpan⟩] :=
      List.isChain_cons.2 ⟨nofun, .singleton _⟩
    exact hhead.append_punct h .openParen opening

mutual

theorem Phrase.parted : ∀ p : Phrase, Parted p.lexemes
  | .number _ _ | .hex _ _ | .name _ _ => .singleton _
  | .target sign _ _ => .punct_cons (.singleton _) .at_ sign
  | .paren opening inner closing =>
    .punct_cons (.append_punct inner.parted List.isChain_nil .closeParen closing) .openParen opening
  | .calculation _ opening inner closing =>
    List.isChain_cons.2 ⟨nofun, Parted.punct_cons
      (.append_punct inner.parted List.isChain_nil .closeParen closing) .openParen opening⟩
  | .call c => c.parted
  | .not sign inner => .punct_cons inner.parted .bang sign
  | .binary left op sign right => .append_punct left.parted right.parted op.punct sign

theorem CallPhrase.parted : ∀ c : CallPhrase, Parted c.lexemes
  | .empty head _ => head.parted (.singleton _)
  | .full head args closing =>
    head.parted (.append_punct args.parted List.isChain_nil .closeParen closing)

theorem ArgsPhrase.parted : ∀ a : ArgsPhrase, Parted a.lexemes
  | .last arg => arg.parted
  | .more arg comma rest => .append_punct arg.parted rest.parted .comma comma

theorem ArgPhrase.parted : ∀ a : ArgPhrase, Parted a.lexemes
  | .expr p => p.parted
  | .text _ _ => .singleton _

end

/-! ## Words of a text -/

variable {text : String} {ls : List Lexeme} {stop : Span}

/-- A name that does not stand behind a number is a word of the text. -/
theorem mem_wordsOf_of_name (hlex : lex text = .ok (ls ++ [⟨.eof, stop⟩])) (hparted : Parted ls)
    {s : String} {span : Span} (hs : ⟨.name s, span⟩ ∈ ls) : s ∈ wordsOf text := by
  obtain ⟨before, after, rfl⟩ := List.append_of_mem hs
  rw [List.append_assoc, List.cons_append] at hlex
  obtain ⟨front, spelled, rest, last, htext, hpieces, hspells, hends, -, -⟩ :=
    (lex_eq_ok_iff.1 hlex).exists_token (l := ⟨.name s, span⟩) nofun rfl
  cases hspells with
  | name hname =>
  have hlast : last.any Token.isNumeral = false := by
    rw [hpieces.last_eq, Option.or_none, Option.any_map]
    cases hbefore : before.getLast? with
    | none => rfl
    | some l =>
      obtain ⟨-, -, hnext⟩ := List.isChain_append.1 hparted
      rw [Option.any_some, Bool.eq_false_iff]
      exact fun hl ↦ hnext l hbefore _ rfl hl s rfl
  have hstarts : StartsWord (s.toList ++ rest) := by
    have hstart := hname.start
    cases hcs : s.toList with
    | nil =>
      rw [hcs] at hstart
      cases hstart
    | cons c cs => rwa [hcs] at hstart
  have hne : s.toList ≠ [] := by
    intro hnil
    have hstart := hname.start
    rw [hnil] at hstart
    cases hstart
  rw [mem_wordsOf, htext]
  exact Word.mem_runs_of_alone (hpieces.getLast_eq_false hstarts hlast) hname.isWord hne hends

/-- What stands between two parentheses has no other words than the text. -/
theorem mem_wordsOf_of_captured (hlex : lex text = .ok ts) {opening closing : Span}
    (hopening : Punct.openParen.at opening ∈ ts) (hclosing : Punct.closeParen.at closing ∈ ts)
    (hle : opening.stop ≤ closing.start) {w : String}
    (hw : w ∈ wordsOf (Parser.captured text ⟨opening.stop, closing.start⟩)) : w ∈ wordsOf text := by
  have hcut : ∀ {p : Punct} {span : Span}, p.at span ∈ ts → ∃ front rest : List Char,
      text.toList = front ++ (p.spelling.toList ++ rest) ∧
      span = ⟨byteLength front, byteLength front + byteLength p.spelling.toList⟩ := by
    intro p span hp
    obtain ⟨before, after, rfl⟩ := List.append_of_mem hp
    obtain ⟨front, spelled, rest, last, htext, -, hspells, -, hspan, -⟩ :=
      (lex_eq_ok_iff.1 hlex).exists_token (l := p.at span) nofun rfl
    cases hspells
    rw [Nat.zero_add] at hspan
    exact ⟨front, rest, htext, hspan⟩
  obtain ⟨front, rest, hfront, rfl⟩ := hcut hopening
  obtain ⟨front', rest', hfront', rfl⟩ := hcut hclosing
  rw [← List.append_assoc] at hfront
  rw [← byteLength_append] at hle hw
  obtain ⟨mid, rfl, -⟩ := append_of_byteLength_le (hfront'.symm.trans hfront) hle
  have hmid : (Span.slice text ⟨byteLength (front ++ Punct.openParen.spelling.toList),
      byteLength (front ++ Punct.openParen.spelling.toList ++ mid)⟩).toList = mid := by
    rw [byteLength_append _ mid]
    exact between_eq (by rw [hfront', List.append_assoc])
  rw [mem_wordsOf, Parser.captured, String.toList_ofList, hmid, Word.runs_trim] at hw
  have hall : text.toList = front ++ '(' :: (mid ++ ')' :: rest') := by
    rw [hfront']
    simp [Punct.spelling]
  rw [mem_wordsOf, hall, Word.runs_append (by decide), Word.runs_append (by decide)]
  exact List.mem_append_right _ (List.mem_append_left _ hw)

end CharacterScript
