import CharacterScript.Proofs.Lexing.Splicing
import CharacterScript.Proofs.Relocation.Definitions
import CharacterScript.Proofs.Relocation.Moves
import Mathlib.Order.Lattice

/-!
# A file with something else in the place of a stretch of it

A `Stretch` is a run of lexemes of a file, at a place where another text stands in a second one.
What is in front of the stretch stays where it is, and what is behind it moves along
(`Stretch.shifted`). The second file need not be a file of anything yet: only its characters are
known.

## What is cut out

So what is cut out of the second file on either side of the stretch, the texts of calculations and
of definitions, is what it was (`Stretch.captured_beside`), and parts and items on either side stay
what they were (`Stretch.carries_part`, `Stretch.moves_item`).

## Two kinds of use

A name that gives way to a text and a comment that gives way to a space are stretches, one with a
lexeme in it and others around it, the other with none of its own. What is common is here: two
texts with the same characters on both sides of a place, and a map of offsets that does nothing in
front of it and adds a distance behind.
-/

namespace CharacterScript

/-! ## Offsets

The map is monotone and keeps distances on either side, and that is all that is used of it. -/

/-- Where an offset goes when the bytes from `a` to `b` become those from `a` to `c`. -/
def shift (a b c x : Nat) : Nat :=
  if x ≤ a then x else rebase b c x

theorem monotone_shift {a b c : Nat} (h : a ≤ c) : Monotone (shift a b c) := by
  intro x y hxy
  rw [shift, shift, rebase, rebase]
  split <;> split <;> omega

theorem shift_of_le {a b c x : Nat} (h : x ≤ a) : shift a b c x = x :=
  if_pos h

theorem shift_of_ge {a b c x : Nat} (hab : a < b) (h : b ≤ x) : shift a b c x = rebase b c x :=
  if_neg (Nat.not_le.2 (hab.trans_le h))

/-- When one part of a text gives way to another, what stands on one side of it is still there. -/
theorem captured_shift {source result : String} {before spelled after inserted : List Char}
    (hsource : source.toList = before ++ (spelled ++ after))
    (hresult : result.toList = before ++ (inserted ++ after))
    (hne : byteLength before < byteLength before + byteLength spelled) {x y : Nat}
    (hx : String.Pos.Raw.IsValid source ⟨x⟩) (hy : String.Pos.Raw.IsValid source ⟨y⟩) (hle : x ≤ y)
    (hside : y ≤ byteLength before ∨ byteLength before + byteLength spelled ≤ x) :
    Parser.captured result
        ⟨shift (byteLength before) (byteLength before + byteLength spelled)
            (byteLength before + byteLength inserted) x,
          shift (byteLength before) (byteLength before + byteLength spelled)
            (byteLength before + byteLength inserted) y⟩
      = Parser.captured source ⟨x, y⟩ := by
  rw [Parser.captured, Parser.captured]
  obtain hy' | hx' := hside
  · have hslice := @slice_rebase source result [] [] before _ _ hsource hresult x y hx hy
      (Nat.zero_le _) hle (by rw [show byteLength [] = 0 from rfl]; omega)
    rw [shift_of_le (hle.trans hy'), shift_of_le hy', ← hslice]
    rfl
  · have hsize : y ≤ byteLength (before ++ spelled) + byteLength after := by
      rw [← byteLength_append, List.append_assoc, ← hsource, ← utf8ByteSize_eq_byteLength]
      exact hy.le_utf8ByteSize
    have hslice := @slice_rebase source result (before ++ spelled) (before ++ inserted) after [] []
      (by simp [hsource]) (by simp [hresult]) x y hx hy (by rwa [byteLength_append]) hle hsize
    rw [shift_of_ge hne hx', shift_of_ge hne (hx'.trans hle), ← byteLength_append,
      ← byteLength_append, ← hslice]
    rfl

def Span.map (f : Nat → Nat) (s : Span) : Span :=
  ⟨f s.start, f s.stop⟩

theorem Span.map_merge {f : Nat → Nat} (hf : Monotone f) (s t : Span) :
    (s.merge t).map f = (s.map f).merge (t.map f) := by
  simp only [Span.map, Span.merge, hf.map_min, hf.map_max]

/-- The tree of a phrase that is only moved is where the tree was moved to. -/
theorem Phrase.span_tree_plain {f : Nat → Nat} (hf : Monotone f) (source source' : String) :
    ∀ p : Phrase, ((p.edit (.plain (Span.map f))).tree source').span = (p.tree source).span.map f
  | .number _ _ | .hex _ _ | .name _ _ => rfl
  | .target _ _ _ | .calculation _ _ _ _ => (Span.map_merge hf _ _).symm
  | .paren _ _ _ => by
    rw [Phrase.edit, Phrase.tree, Phrase.tree, Expr.span_withSpan, Expr.span_withSpan]
    exact (Span.map_merge hf _ _).symm
  | .call c => by
    have hstart : ∀ head : CallHead, ((Edit.plain (Span.map f)).head head).start
        = head.start.map f := by
      rintro ⟨collapse, name, nameSpan, opening⟩
      cases collapse <;> rfl
    cases c with
    | empty head closing | full head args closing =>
      rw [Phrase.edit, CallPhrase.edit, Phrase.tree, Phrase.tree]
      show (((Edit.plain (Span.map f)).head head).start).merge _ = (head.start.merge closing).map f
      rw [hstart, Span.map_merge hf]
      rfl
  | .not sign inner => by
    have hinner := inner.span_tree_plain hf source source'
    rw [Phrase.edit, Phrase.tree, Phrase.tree]
    show Span.merge _ _ = Span.map f (Span.merge _ _)
    rw [hinner, Span.map_merge hf]
    rfl
  | .binary left op sign right => by
    have hleft := left.span_tree_plain hf source source'
    have hright := right.span_tree_plain hf source source'
    rw [Phrase.edit, Phrase.tree, Phrase.tree]
    show Span.merge _ _ = Span.map f (Span.merge _ _)
    rw [hleft, hright, Span.map_merge hf]

/-! ## Edges of parts -/

/-- The text of a calculation stands between two lexemes. -/
theorem Part.calculation_edges {source : String} {ts : List Lexeme} (hlex : lex source = .ok ts)
    {ps : List Part} (hps : (ps.flatMap Part.lexemes).Sublist ts) {word opening closing : Span}
    {inner : Phrase} (h : .calculation word opening inner closing ∈ ps) :
    Punct.openParen.at opening ∈ ts ∧ Punct.closeParen.at closing ∈ ts ∧
      opening.stop ≤ closing.start := by
  have hpart : (Part.calculation word opening inner closing).lexemes.Sublist ts :=
    (List.sublist_flatten_of_mem (List.mem_map_of_mem h)).trans hps
  have hincreasing := (lex_tiles hlex).increasing.sublist hpart
  rw [Part.lexemes, Phrase.lexemes] at hpart hincreasing
  have hbehind := (List.pairwise_cons.1 (List.pairwise_cons.1 hincreasing).2).1
  exact ⟨hpart.subset (by simp), hpart.subset (by simp),
    (hbehind (Punct.closeParen.at closing) (by simp)).2⟩

/-! ## Stretches

A place that ends in front of the stretch stays, one that starts behind it moves, and one that
reaches over it is stretched. -/

/-- A stretch of lexemes of a file, and a second text that has something else there. -/
structure Stretch (source result : String) where
  /-- What of the file stands in front. -/
  front : List Part
  /-- The lexemes of the stretch itself. -/
  gone : List Lexeme
  /-- What of the file stands behind. -/
  back : List Part
  /-- Where the stretch is in the first text. -/
  span : Span
  /-- Where what is behind the stretch starts in the second text. -/
  resume : Nat
  /-- The lexer gets these three in the first text. -/
  lexes : ∃ stop, lex source = .ok (front.flatMap Part.lexemes ++
    (gone ++ (back.flatMap Part.lexemes ++ [⟨.eof, stop⟩])))
  /-- The stretch starts with its first lexeme. -/
  first : ∃ l ls, gone = l :: ls ∧ l.span.start = span.start
  /-- It ends with its last one. -/
  last : ∃ ls l, gone = ls ++ [l] ∧ l.span.stop = span.stop
  /-- The texts have the same in front of the stretch and behind it. -/
  cut : ∃ before spelled after inserted, source.toList = before ++ (spelled ++ after) ∧
    span = ⟨byteLength before, byteLength before + byteLength spelled⟩ ∧
    result.toList = before ++ (inserted ++ after) ∧
    resume = byteLength before + byteLength inserted

namespace Stretch

variable {source result : String} (T : Stretch source result)

/-- Where an offset goes. -/
def shifted (x : Nat) : Nat :=
  shift T.span.start T.span.stop T.resume x

def edit : Edit :=
  .plain (Span.map T.shifted)

/-! ### Where the lexemes stand -/

theorem front_lt {l : Lexeme} (h : l ∈ T.front.flatMap Part.lexemes) :
    l.span.start < T.span.start ∧ l.span.stop ≤ T.span.start := by
  obtain ⟨stop, hlex⟩ := T.lexes
  obtain ⟨m, ms, hgone, hstart⟩ := T.first
  have hlt := (List.pairwise_append.1 (lex_tiles hlex).increasing).2.2 l h m (by simp [hgone])
  rwa [hstart] at hlt

theorem back_ge {l : Lexeme} (h : l ∈ T.back.flatMap Part.lexemes) :
    T.span.stop ≤ l.span.start ∧ l.span.start ≤ l.span.stop := by
  obtain ⟨stop, hlex⟩ := T.lexes
  obtain ⟨ms, m, hgone, hstop⟩ := T.last
  have hmem := List.mem_append_left [(⟨.eof, stop⟩ : Lexeme)] h
  have hbehind := (List.pairwise_append.1 (lex_tiles hlex).increasing).2.1
  have hlt := (List.pairwise_append.1 hbehind).2.2 m (by simp [hgone]) l hmem
  exact ⟨hstop ▸ hlt.2,
    (lex_tiles hlex).start_le_stop (List.mem_append_right _ (List.mem_append_right _ hmem))⟩

theorem start_lt_stop : T.span.start < T.span.stop := by
  obtain ⟨stop, hlex⟩ := T.lexes
  obtain ⟨l, ls, hfirst, hstart⟩ := T.first
  obtain ⟨ms, m, hlast, hstop⟩ := T.last
  obtain ⟨body, hbody, hwidth⟩ := (lex_tiles hlex).ends
  have hm : m.span.start < m.span.stop := by
    rw [← List.append_assoc, ← List.append_assoc] at hbody
    obtain ⟨rfl, -⟩ := List.append_inj' hbody rfl
    exact (hwidth m (by simp [hlast])).2
  rw [← hstart, ← hstop]
  have hgone := hfirst.symm.trans hlast
  cases ms with
  | nil =>
    obtain ⟨rfl, -⟩ := List.cons.inj hgone
    exact hm
  | cons n ms =>
    obtain ⟨rfl, rfl⟩ := List.cons.inj hgone
    have hgone' := (List.pairwise_append.1 (List.pairwise_append.1
      (lex_tiles hlex).increasing).2.1).1
    rw [hfirst] at hgone'
    exact ((List.pairwise_cons.1 hgone').1 m (by simp)).1.trans hm

theorem monotone_shifted : Monotone T.shifted := by
  obtain ⟨before, spelled, after, inserted, -, hspan, -, hresume⟩ := T.cut
  exact monotone_shift (by rw [hspan, hresume]; exact Nat.le_add_right _ _)

theorem shifted_front {x : Nat} (h : x ≤ T.span.start) : T.shifted x = x :=
  shift_of_le h

theorem shifted_back {x : Nat} (h : T.span.stop ≤ x) :
    T.shifted x = rebase T.span.stop T.resume x :=
  shift_of_ge T.start_lt_stop h

theorem lexeme_front {l : Lexeme} (h : l ∈ T.front.flatMap Part.lexemes) : T.edit.lexeme l = l := by
  obtain ⟨hstart, hstop⟩ := T.front_lt h
  show (⟨l.token, ⟨T.shifted l.span.start, T.shifted l.span.stop⟩⟩ : Lexeme) = l
  rw [T.shifted_front hstart.le, T.shifted_front hstop]

theorem lexeme_back {l : Lexeme} (h : l ∈ T.back.flatMap Part.lexemes) :
    T.edit.lexeme l = l.rebase T.span.stop T.resume := by
  obtain ⟨hge, hle⟩ := T.back_ge h
  show (⟨l.token, ⟨T.shifted l.span.start, T.shifted l.span.stop⟩⟩ : Lexeme) = _
  rw [T.shifted_back hge, T.shifted_back (hge.trans hle)]
  rfl

/-- What is in front of the stretch is written as before, by an edit that only moves it. -/
theorem flatMap_front {E : Edit}
    (h : ∀ part ∈ T.front, E.part part = part.lexemes.map T.edit.lexeme) :
    T.front.flatMap E.part = T.front.flatMap Part.lexemes := by
  refine List.flatMap_congr fun part hpart ↦ (h part hpart).trans ?_
  refine (List.map_congr_left fun l hl ↦ ?_).trans (List.map_id _)
  exact T.lexeme_front (List.mem_flatMap.2 ⟨part, hpart, hl⟩)

/-- What is behind the stretch is moved along, by an edit that only moves it. -/
theorem flatMap_back {E : Edit}
    (h : ∀ part ∈ T.back, E.part part = part.lexemes.map T.edit.lexeme) :
    T.back.flatMap E.part
      = (T.back.flatMap Part.lexemes).map (Lexeme.rebase T.span.stop T.resume) := by
  rw [List.map_flatMap]
  refine List.flatMap_congr fun part hpart ↦ (h part hpart).trans ?_
  exact List.map_congr_left fun l hl ↦ T.lexeme_back (List.mem_flatMap.2 ⟨part, hpart, hl⟩)

/-! ### What is cut out -/

/-- What stands on one side of the stretch is still there. -/
theorem captured_shifted {x y : Nat} (hx : String.Pos.Raw.IsValid source ⟨x⟩)
    (hy : String.Pos.Raw.IsValid source ⟨y⟩) (hle : x ≤ y)
    (hside : y ≤ T.span.start ∨ T.span.stop ≤ x) :
    Parser.captured result ⟨T.shifted x, T.shifted y⟩ = Parser.captured source ⟨x, y⟩ := by
  obtain ⟨before, spelled, after, inserted, hsource, hspan, hresult, hresume⟩ := T.cut
  have hlt := T.start_lt_stop
  simp only [shifted, hspan, hresume] at hside hlt ⊢
  exact captured_shift hsource hresult hlt hx hy hle hside

/-- All of the lexemes are in front of the stretch, or all of them are behind it. -/
def Beside (ls : List Lexeme) : Prop :=
  ls ⊆ T.front.flatMap Part.lexemes ∨ ls ⊆ T.back.flatMap Part.lexemes

variable {T} in
theorem Beside.stands {ls : List Lexeme} (h : T.Beside ls) {l : Lexeme} (hl : l ∈ ls) :
    (∃ lo, l.Stands source lo) ∧ l.span.start ≤ l.span.stop := by
  obtain ⟨stop, hlex⟩ := T.lexes
  have hmem : l ∈ T.front.flatMap Part.lexemes ++
      (T.gone ++ (T.back.flatMap Part.lexemes ++ [⟨.eof, stop⟩])) := by
    obtain hfront | hback := h
    · exact List.mem_append_left _ (hfront hl)
    · exact List.mem_append_right _ (List.mem_append_right _ (List.mem_append_left _ (hback hl)))
  exact ⟨(lex_tiles hlex).stands hmem, (lex_tiles hlex).start_le_stop hmem⟩

/-- What is cut out between edges of lexemes beside the stretch. -/
theorem captured_beside {ls : List Lexeme} (h : T.Beside ls) {x y : Nat}
    (hx : ∃ l ∈ ls, l.span.start = x ∨ l.span.stop = x)
    (hy : ∃ l ∈ ls, l.span.start = y ∨ l.span.stop = y) (hle : x ≤ y) :
    Parser.captured result ⟨T.shifted x, T.shifted y⟩ = Parser.captured source ⟨x, y⟩ := by
  have hvalid : ∀ {z}, (∃ l ∈ ls, l.span.start = z ∨ l.span.stop = z) →
      String.Pos.Raw.IsValid source ⟨z⟩ := by
    rintro _ ⟨l, hl, hz⟩
    obtain ⟨⟨lo, hstands⟩, -⟩ := h.stands hl
    obtain rfl | rfl := hz
    · exact hstands.start
    · exact hstands.stop
  refine T.captured_shifted (hvalid hx) (hvalid hy) hle ?_
  obtain ⟨l, hl, hx⟩ := hx
  obtain ⟨l', hl', hy⟩ := hy
  refine h.imp (fun hfront ↦ ?_) fun hback ↦ ?_
  · have hlt := T.front_lt (hfront hl')
    omega
  · have hge := T.back_ge (hback hl)
    omega

/-- What is cut out by a place in the tree of a phrase beside the stretch. -/
theorem captured_edged {ls : List Lexeme} (h : T.Beside ls) {r : Span} (hr : r.Edged ls) :
    Parser.captured result (r.map T.shifted) = Parser.captured source r := by
  obtain ⟨l, hl, hstart⟩ := hr.start
  obtain ⟨l', hl', hstop⟩ := hr.stop
  obtain ⟨m, hm, hle, hle'⟩ := hr.holds
  exact T.captured_beside h ⟨l, hl, .inl hstart⟩ ⟨l', hl', .inr hstop⟩
    (hle.trans ((h.stands hm).2.trans hle'))

/-! ### Parts -/

theorem beside_part {part : Part} (h : part ∈ T.front ∨ part ∈ T.back) : T.Beside part.lexemes :=
  h.imp (fun h _ hl ↦ List.mem_flatMap.2 ⟨part, h, hl⟩) fun h _ hl ↦
    List.mem_flatMap.2 ⟨part, h, hl⟩

theorem captured_calculation {word opening inner closing}
    (h : .calculation word opening inner closing ∈ T.front ∨
      .calculation word opening inner closing ∈ T.back) :
    Parser.captured result ⟨(opening.map T.shifted).stop, (closing.map T.shifted).start⟩
      = Parser.captured source ⟨opening.stop, closing.start⟩ := by
  obtain ⟨stop, hlex⟩ := T.lexes
  have hsides : ((T.front ++ T.back).flatMap Part.lexemes).Sublist (T.front.flatMap Part.lexemes ++
      (T.gone ++ (T.back.flatMap Part.lexemes ++ [⟨.eof, stop⟩]))) := by
    rw [List.flatMap_append]
    exact (List.Sublist.refl _).append
      ((List.sublist_append_left _ _).trans (List.sublist_append_right _ _))
  obtain ⟨-, -, hle⟩ := Part.calculation_edges hlex hsides (List.mem_append.2 h)
  refine T.captured_beside (T.beside_part h) ⟨Punct.openParen.at opening, ?_, .inr rfl⟩
    ⟨Punct.closeParen.at closing, ?_, .inl rfl⟩ hle
  all_goals simp [Part.lexemes, Phrase.lexemes]

/-- Of a part on one side of the stretch nothing changes but the place. -/
theorem carries_part {m : Motion} (hm : m.Free) {part : Part}
    (h : part ∈ T.front ∨ part ∈ T.back) : T.edit.Carries m source result part :=
  Edit.carries_plain hm fun heq ↦ T.captured_calculation (heq ▸ h)

/-! ### Items -/

theorem beside_item {i : ItemPhrase} (h : i.parts ⊆ T.front ∨ i.parts ⊆ T.back) :
    T.Beside i.lexemes := by
  have hsub : ∀ {ps : List Part}, i.parts ⊆ ps → i.lexemes ⊆ ps.flatMap Part.lexemes := by
    intro ps hps l hl
    rw [← i.flatMap_parts] at hl
    obtain ⟨part, hpart, hl⟩ := List.mem_flatMap.1 hl
    exact List.mem_flatMap.2 ⟨part, hps hpart, hl⟩
  exact h.imp hsub hsub

/-- An item whose lexemes go along with the stretch stays the same if the bodies of callables do,
and if it is beside the stretch in case it is a definition. -/
theorem moves_item {same : Block → Block → Prop} {E : Edit} (hE : E.move = Span.map T.shifted)
    {ps : List ItemPhrase} {f : ItemPhrase → ItemPhrase} {i : ItemPhrase} (hi : i ∈ ps)
    (hf : f i = i.edit E) (hdefine : i.isDefine = true → T.Beside i.lexemes)
    (hbody : ∀ {kind word s nameSpan params body}, i = .callable kind word s nameSpan params body →
      same (body.tree source) ((body.edit E).tree result)) :
    (i.tree source).Moves (definitionPlaces ps f) same ((f i).tree result) := by
  rw [hf]
  refine ItemPhrase.moves_edit (fun {d d'} hd hd' ↦ ?_) hbody
  obtain ⟨his, hedged⟩ := ItemPhrase.edged_define hd
  obtain ⟨-, hedged'⟩ := ItemPhrase.edged_define hd'
  refine ⟨?_, definitionPlaces_of_edged hi his hedged (hf ▸ hedged')⟩
  cases i with
  | define word s nameSpan body =>
    cases hd
    cases hd'
    have hsub : body.lexemes ⊆ (ItemPhrase.define word s nameSpan body).lexemes := fun l hl ↦ by
      simp [ItemPhrase.lexemes, hl]
    show Parser.captured result ((body.edit (.plain E.move)).tree result).span = _
    rw [hE, body.span_tree_plain T.monotone_shifted source]
    exact T.captured_edged (hdefine rfl) (body.edged_span hsub)
  | directive | global | callable => cases hd

end Stretch

end CharacterScript
