import CharacterScript.Proofs.Positions.Scanning
import CharacterScript.Proofs.Tokenization

/-!
# Markers are found where tokens are

The scan for markers and the reader of tokens go over a text on their own, and each keeps track of
comments, text literals and path directives in its own way. They stay in step: wherever a token or a
gap starts, the scan is outside of everything, or it waits for the end of a line that is right there
(`Region.Ready`). Between two such places it goes over a gap, over a token that is no marker, or
over a marker, and only the last of these gives it a file (`Gap.crosses`, `Spells.crosses`).

## In step, not in the same state

The reader of tokens has no state but the last token, and the scan has a region. They are compared
at the places where a piece starts. Over a piece the scan may go through several regions, and is
back where it started when the piece ends; the one exception is a marker or a line comment, behind
which it waits for the end of the line.
-/

namespace CharacterScript

/-- The line that an offset is in, counted from one. -/
def lineNumber (source : String) (offset : Nat) : Nat :=
  (between source 0 offset).count '\n' + 1

/-- Whether an offset is the start of the text or right behind a line feed. -/
def StartsLine (source : String) (offset : Nat) : Prop :=
  offset = 0 ∨ (between source 0 offset).getLast? = some '\n'

instance (source : String) (offset : Nat) : Decidable (StartsLine source offset) :=
  inferInstanceAs (Decidable (_ ∨ _))

/-- The file that a token marks the start of. -/
def Lexeme.markedFile? (source : String) (l : Lexeme) : Option FileIdent :=
  match l.token with
  | .directive .file path => some ⟨path, lineNumber source l.span.start + 1⟩
  | _ => none

open SourceMap SourceMap.Scanner

variable {last : Option Token} {t : Token} {offset : Nat} {front rest text : List Char}
variable {ts : List Lexeme} {r : Region}

/-- A region in which the scan may come to a token or a gap. -/
def SourceMap.Region.Ready (r : Region) (text : List Char) : Prop :=
  r = .code ∨ r = .line ∧ NoneNext (· != '\n') text

/-! ## Characters that mean nothing to the scan -/

theorem SourceMap.startsDirective_eq_false {c : Char} (hc : c ≠ '#') (next : List Char) :
    startsDirective (c :: next) = false := by
  simp [startsDirective, List.isPrefixOf_cons_cons, hc.symm]

namespace SourceMap.Scanner.Crosses

theorem plain_cons {c : Char} (hc : c ≠ '/' ∧ c ≠ '#' ∧ c ≠ '"') (h : Crosses rest .code r text) :
    Crosses rest .code r (c :: text) := by
  obtain ⟨hslash, hhash, hquote⟩ := hc
  refine cons (fun _ ↦ markerName?_eq_none_of_ne hhash) ?_ h
  simp [Region.step, hslash, hquote, startsDirective_eq_false hhash]

theorem plain (h : '/' ∉ text ∧ '#' ∉ text ∧ '"' ∉ text) : Crosses rest .code .code text := by
  induction text with
  | nil => exact nil
  | cons c text ih =>
    simp only [List.mem_cons, not_or] at h
    obtain ⟨⟨hslash, hslashes⟩, ⟨hhash, hhashes⟩, hquote, hquotes⟩ := h
    exact plain_cons ⟨Ne.symm hslash, Ne.symm hhash, Ne.symm hquote⟩
      (ih ⟨hslashes, hhashes, hquotes⟩)

/-- Characters of a class that leaves out what means something. -/
theorem ofClass {p : Char → Bool} (h : ∀ c ∈ text, p c = true)
    (hp : p '/' = false ∧ p '#' = false ∧ p '"' = false) : Crosses rest .code .code text := by
  refine plain ⟨?_, ?_, ?_⟩
  all_goals
    intro hc
    have hclass := h _ hc
    simp [hp] at hclass

/-- The body of a text literal. -/
theorem literal (h : '"' ∉ text) : Crosses rest .text .text text := by
  refine of_forall nofun fun c hc next ↦ ?_
  have hne : c ≠ '"' := fun heq ↦ h (heq ▸ hc)
  simp [Region.step, hne]

/-- The body of a block comment: no mark in it, or across its end, closes the comment. -/
theorem comment (h : ¬ ['*', '/'] <:+: text ++ ['*']) :
    Crosses ('*' :: rest) .block .block text := by
  induction text with
  | nil => exact nil
  | cons c text ih =>
    have hstep : Region.step .block c (text ++ '*' :: rest) = (.block, false) := by
      refine if_neg ?_
      rintro ⟨rfl, hnext⟩
      cases text with
      | nil => cases hnext
      | cons d text =>
        cases hnext
        exact h (List.infix_append [] _ _)
    refine cons nofun hstep (ih fun hinfix ↦ h ?_)
    exact hinfix.trans (List.suffix_cons _ _).isInfix

end SourceMap.Scanner.Crosses

/-! ## Gaps -/

theorem Gap.crosses_code (h : Gap rest front) :
    ∃ r', Crosses rest .code r' front ∧ r'.Ready rest := by
  cases h with
  | blank h => exact ⟨.code, .ofClass (List.forall_mem_singleton.2 h) (by decide), .inl rfl⟩
  | line hbody hrest =>
    refine ⟨.line, ?_, .inr ⟨rfl, hrest⟩⟩
    refine .cons (fun _ ↦ markerName?_eq_none_of_ne (by decide)) rfl (.line ?_)
    rw [List.mem_cons, not_or]
    exact ⟨by decide, hbody⟩
  | @block body h =>
    refine ⟨.code, .pair (by decide) rfl ?_, .inl rfl⟩
    exact .append (.comment h) (.pair (by decide) rfl .nil)

theorem Gap.crosses (h : Gap rest front) (hready : r.Ready (front ++ rest)) :
    ∃ r', Crosses rest r r' front ∧ r'.Ready rest := by
  obtain rfl | ⟨rfl, hend⟩ := hready
  · exact h.crosses_code
  · cases h with
    | @blank c h =>
      have hc : c = '\n' := by simpa using noneNext_cons.1 hend
      exact ⟨.code, .cons nofun (by simp [Region.step, hc]) .nil, .inl rfl⟩
    | line | block => cases hend

/-! ## Tokens

A token that is not a path directive holds nothing that the scan could take for one, but for text
literals, and these have a region of their own. -/

/-- No token starts with a line feed. -/
theorem SourceMap.Region.Ready.code_of_spells (hready : r.Ready (front ++ rest))
    (h : Spells t front)
    (hends : t.Ends last front rest) : r = .code := by
  obtain hcode | ⟨-, hend⟩ := hready
  · exact hcode
  · obtain ⟨c, more, rfl⟩ := List.exists_cons_of_ne_nil h.ne_nil
    have hc : c = '\n' := by simpa using noneNext_cons.1 hend
    have hread := Piece.read_of_spells h hends
    rw [hc] at hread
    cases hread

/-- A path directive other than a marker keeps the scan from its line. -/
private theorem crosses_directive {d : PathDirective} (hd : d ≠ .file) {path trailing : List Char}
    (hline : '\n' ∉ path ++ trailing) :
    Crosses rest .code .line ('#' :: (d.word.toList ++ ' ' :: (path ++ trailing))) := by
  have hfree : '\n' ∉ d.word.toList ++ ' ' :: (path ++ trailing) := by
    have hword : '\n' ∉ d.word.toList := by
      cases d <;> decide
    rw [List.mem_append, List.mem_cons]
    rintro (hmem | hmem | hmem)
    · exact hword hmem
    · cases hmem
    · exact hline hmem
  cases d with
  | file => exact absurd rfl hd
  | base => exact .cons (fun _ ↦ rfl) rfl (.line hfree)
  | output => exact .cons (fun _ ↦ rfl) rfl (.line hfree)

/-- A slash that starts no comment. -/
private theorem crosses_slash (h : NoneNext (fun c ↦ c == '/' || c == '*') rest) :
    Crosses rest .code .code ['/'] := by
  have hstep : Region.step .code '/' ([] ++ rest) = (.code, false) := by
    cases rest with
    | nil => rfl
    | cons c rest =>
      have hc := noneNext_cons.1 h
      simp only [Bool.or_eq_false_iff, beq_eq_false_iff_ne] at hc
      simp [Region.step, hc, startsDirective_eq_false]
  exact .cons (fun _ ↦ markerName?_eq_none_of_ne (by decide)) hstep .nil

private theorem crosses_decimal {whole fraction : List Char} (h : IsDecimal whole fraction) :
    Crosses rest .code .code (decimalText whole fraction) :=
  .ofClass h.of_mem (by decide)

theorem Spells.crosses (h : Spells t front) (hends : t.Ends last front rest)
    (ht : ∀ path, t ≠ .directive .file path) :
      ∃ r', Crosses rest .code r' front ∧ r'.Ready rest := by
  -- only a slash, a directive and a text come near what the scan looks for
  cases h with
  | @keyword k hk =>
    refine ⟨.code, .plain ?_, .inl rfl⟩
    cases k <;> decide
  | @elif blanks hne hblanks =>
    have hplain : '/' ∉ blanks ∧ '#' ∉ blanks ∧ '"' ∉ blanks :=
      ⟨fun hc ↦ absurd (hblanks _ hc) (by decide), fun hc ↦ absurd (hblanks _ hc) (by decide),
        fun hc ↦ absurd (hblanks _ hc) (by decide)⟩
    exact ⟨.code, .append (.plain (by decide)) (.append (.plain hplain) (.plain (by decide))),
      .inl rfl⟩
  | punct p =>
    refine ⟨.code, ?_, .inl rfl⟩
    by_cases hp : p = .slash
    · subst hp
      exact crosses_slash (hends.2.1 rfl)
    · refine .plain ?_
      cases p <;> first | exact absurd rfl hp | decide
  | defineWord =>
    exact ⟨.code, .cons (fun _ ↦ rfl) rfl (.plain (by decide)), .inl rfl⟩
  | calcWord =>
    exact ⟨.code, .cons (fun _ ↦ rfl) rfl (.plain (by decide)), .inl rfl⟩
  | directive d hne hpath htrailing hline =>
    have hd : d ≠ .file := by
      rintro rfl
      exact ht _ rfl
    exact ⟨.line, crosses_directive hd hline, .inr ⟨rfl, hends⟩⟩
  | number h => exact ⟨.code, crosses_decimal h, .inl rfl⟩
  | negative h => exact ⟨.code, .plain_cons (by decide) (crosses_decimal h), .inl rfl⟩
  | @hex _ x _ hx hne hlength hdigits hvalue =>
    have hplain : '/' ∉ ['0', x] ∧ '#' ∉ ['0', x] ∧ '"' ∉ ['0', x] := by
      rcases hx with rfl | rfl <;> decide
    exact ⟨.code, .append (.plain hplain) (.ofClass hdigits (by decide)), .inl rfl⟩
  | @text body h =>
    refine ⟨.code, ?_, .inl rfl⟩
    refine .cons (fun _ ↦ markerName?_eq_none_of_ne (by decide)) rfl ?_
    exact .append (.literal h) (.cons nofun rfl .nil)
  | name h =>
    exact ⟨.code, .ofClass h.isWord (by decide), .inl rfl⟩
  | reference hstart h =>
    exact ⟨.code, .plain_cons (by decide) (.ofClass h (by decide)), .inl rfl⟩

/-! ## The whole text -/

/-- The scan has come over `before` to a place where a token or a gap starts. -/
structure SourceMap.Scanner.At (s : Scanner) (before text : List Char) : Prop where
  /-- The next character counts. -/
  skip : s.skip = false
  /-- At the start of a line the scan knows that it is there. -/
  atStart : before = [] ∨ before.getLast? = some '\n' → s.atStart = true
  /-- The region is one in which a token or a gap may start. -/
  ready : s.region.Ready text

namespace SourceMap.Scanner.At

variable {s : Scanner} {before : List Char}

theorem start (text : List Char) : Scanner.start.At [] text :=
  ⟨rfl, fun _ ↦ rfl, .inl rfl⟩

theorem step (h : s.At before (front ++ rest)) (hne : front ≠ [])
    (hskip : (s.run rest front).skip = false) (hready : (s.run rest front).region.Ready rest) :
    (s.run rest front).At (before ++ front) rest := by
  refine ⟨hskip, fun hlast ↦ ?_, hready⟩
  have hsound : s.Sound (front ++ rest) := by
    intro hs
    rw [h.skip] at hs
    cases hs
  rw [atStart_run hsound hne]
  obtain ⟨c, more, rfl⟩ := List.exists_cons_of_ne_nil hne
  simpa [List.getLast?_append] using hlast

end SourceMap.Scanner.At

theorem eq_nil_or_getLast?_of_startsLine {source : String} {before : List Char}
    (hsource : source.toList = before ++ text) (h : StartsLine source (byteLength before)) :
    before = [] ∨ before.getLast? = some '\n' := by
  obtain hzero | hlast := h
  · cases before with
    | nil => exact .inl rfl
    | cons c before =>
      have hpos := c.utf8Size_pos
      rw [byteLength_cons] at hzero
      omega
  · rw [between_zero hsource] at hlast
    exact .inr hlast

/-- Over a token the scan finds the file that the token marks, and no other. -/
theorem Spells.scanned {source : String} {before : List Char} {s : Scanner} (h : Spells t front)
    (hends : t.Ends last front rest) (hsource : source.toList = before ++ (front ++ rest))
    (hs : s.At before (front ++ rest)) {stop : Nat}
    (hstarts : ∀ path, t = .directive .file path → StartsLine source (byteLength before)) :
    (s.run rest front).region.Ready rest ∧ (s.run rest front).skip = false ∧
      s.marks rest (before.count '\n' + 1) front
        = (Lexeme.markedFile? source ⟨t, ⟨byteLength before, stop⟩⟩).toList := by
  have hcode := hs.ready.code_of_spells h hends
  by_cases ht : ∃ path, t = .directive .file path
  · obtain ⟨path, rfl⟩ := ht
    have hstart := hs.atStart (eq_nil_or_getLast?_of_startsLine hsource (hstarts path rfl))
    cases h with
    | directive _ hne hpath htrailing hline =>
      obtain ⟨hregion, hskip, hmarks⟩ :=
        scan_markerLine hcode hstart hs.skip hline hpath htrailing hends
      refine ⟨.inr ⟨hregion, hends⟩, hskip, (hmarks _).trans ?_⟩
      rw [Lexeme.markedFile?, lineNumber, between_zero hsource]
      rfl
  · have hne : ∀ path, t ≠ .directive .file path := fun path hpath ↦ ht ⟨path, hpath⟩
    obtain ⟨r', hcross, hready⟩ := h.crosses hends hne
    obtain ⟨hregion, hskip, hmarks⟩ := hcross s hcode hs.skip
    have hnone : Lexeme.markedFile? source ⟨t, ⟨byteLength before, stop⟩⟩ = none := by
      rw [Lexeme.markedFile?]
      split
      next path hpath => exact absurd hpath (hne path)
      · rfl
    exact ⟨hregion ▸ hready, hskip, by rw [hmarks, hnone]; rfl⟩

theorem Lexes.marks_eq {source : String} (h : Lexes last offset text ts) :
    ∀ {before : List Char} {s : Scanner}, source.toList = before ++ text →
      offset = byteLength before → s.At before text →
      (∀ l ∈ ts, ∀ path, l.token = .directive .file path → StartsLine source l.span.start) →
      s.marks [] (before.count '\n' + 1) text = ts.filterMap (Lexeme.markedFile? source) := by
  have hlines : ∀ before front : List Char,
      before.count '\n' + 1 + front.count '\n' = (before ++ front).count '\n' + 1 := by
    intro before front
    rw [List.count_append]
    omega
  induction h with
  | done => exact fun _ _ _ _ ↦ rfl
  | @gap last offset front rest ts hgap _ ih =>
    intro before s hsource hoffset hs hstarts
    obtain ⟨r', hcross, hready⟩ := hgap.crosses hs.ready
    obtain ⟨hregion, hskip, hmarks⟩ := hcross s rfl hs.skip
    rw [marks_append, List.append_nil, hmarks, List.nil_append, hlines]
    refine ih (by rw [hsource, List.append_assoc]) (by rw [hoffset, byteLength_append]) ?_ hstarts
    exact hs.step hgap.ne_nil hskip (hregion ▸ hready)
  | @token last offset t front rest ts hspells hends _ ih =>
    intro before s hsource hoffset hs hstarts
    subst hoffset
    obtain ⟨hstart, hstarts⟩ := List.forall_mem_cons.1 hstarts
    obtain ⟨hready, hskip, hmarks⟩ := hspells.scanned hends hsource hs hstart
    have hrest := ih (by rw [hsource, List.append_assoc]) (byteLength_append _ _).symm
      (hs.step hspells.ne_nil hskip hready) hstarts
    rw [marks_append, List.append_nil, hmarks, hlines, hrest, List.filterMap_cons]
    cases Lexeme.markedFile? source _ with
    | none => rfl
    | some file => rfl

/-- A quote in a path, a marker in a literal, a quote in a comment, and two markers. -/
def markedText : String :=
  "#out \"a\n#__FILE__ x \n\"\n#__FILE__ no\" /* \" */\n#__FILE__ /é"

end CharacterScript
