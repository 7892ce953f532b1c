import CharacterScript.Proofs.Positions.Scanning
import CharacterScript.Proofs.Tokenization

/-!
# Finding the line of an offset

The starts of lines are in order, so the search finds the one line that starts at or before an
offset and ends behind it (`SourceMap.lineOf_eq`). From there a column is found by walking over
characters.

## Parts of a text

A part of a text that starts with a line is laid out in the text as it is alone: every place in it
has the same column and width, and its line counts on from the lines in front
(`SourceMap.place_within`).

## The search by halves

The search keeps two indices with the line in between: the line at the lower one starts at or
before the offset, and the one at the upper one behind it. Halving keeps this, and the number of
steps it is given is more than the bits of the distance. Nothing else is ever said about the
search; the line it finds is the one with the property.
-/

namespace CharacterScript

/-! ## Walking over characters -/

theorem advance?_append {bytes : Nat} {text : List Char} (h : bytes ≤ byteLength text) (count : Nat)
    (rest : List Char) : advance? bytes count (text ++ rest)
      = (advance? bytes count text).map fun (n, more) ↦ (n, more ++ rest) := by
  induction text generalizing bytes count with
  | nil =>
    have hbytes : bytes = 0 := Nat.le_zero.1 h
    cases rest with
    | nil => simp [advance?, hbytes]
    | cons c rest => simp [advance?, hbytes]
  | cons c text ih =>
    rw [byteLength_cons] at h
    rw [List.cons_append, advance?, advance?]
    split
    · rfl
    · split
      · exact ih (by omega) _
      · rfl

theorem byteLength_of_advance? {bytes count n : Nat} {text rest : List Char}
    (h : advance? bytes count text = some (n, rest)) :
      byteLength text = bytes + byteLength rest := by
  induction text generalizing bytes count with
  | nil =>
    rw [advance?] at h
    split at h
    next hbytes =>
      cases h
      rw [hbytes, Nat.zero_add]
    · cases h
  | cons c text ih =>
    rw [advance?] at h
    split at h
    next hbytes =>
      cases h
      rw [hbytes, Nat.zero_add]
    · split at h
      next hsize =>
        rw [byteLength_cons, ih h]
        omega
      · cases h

namespace SourceMap

/-! ## The starts of lines

The starts are those places that come right behind a line feed, in order, with the start of the
text in front. -/

theorem breaks_append (offset : Nat) (front back : List Char) :
    breaks offset (front ++ back)
      = (breaks offset front).map (fun l ↦ ⟨l.offset, l.rest ++ back⟩)
        ++ breaks (offset + byteLength front) back := by
  induction front generalizing offset with
  | nil => rfl
  | cons c front ih =>
    rw [List.cons_append, breaks, breaks, ih, byteLength_cons, Nat.add_assoc]
    split <;> rfl

theorem breaks_add (n offset : Nat) (text : List Char) :
    breaks (n + offset) text = (breaks offset text).map fun l ↦ ⟨n + l.offset, l.rest⟩ := by
  induction text generalizing offset with
  | nil => rfl
  | cons c text ih =>
    rw [breaks, breaks, Nat.add_assoc, ih]
    split <;> rfl

theorem length_breaks (offset : Nat) (text : List Char) :
    (breaks offset text).length = text.count '\n' := by
  induction text generalizing offset with
  | nil => rfl
  | cons c text ih =>
    rw [breaks, List.count_cons]
    split
    next hc => simp [ih, hc]
    next hc => simp [ih, hc]

/-- A line starts where its text says, and not at the start of the whole. -/
theorem exists_front_of_mem_breaks {offset : Nat} {text : List Char} {l : LineStart}
    (h : l ∈ breaks offset text) :
    ∃ front, text = front ++ l.rest ∧ l.offset = offset + byteLength front ∧ offset < l.offset := by
  induction text generalizing offset with
  | nil => cases h
  | cons c text ih =>
    have hpos := c.utf8Size_pos
    rw [breaks] at h
    split at h
    · rcases List.mem_cons.1 h with rfl | h
      · exact ⟨[c], rfl, by simp [byteLength], Nat.lt_add_of_pos_right hpos⟩
      · obtain ⟨front, rfl, hoffset, hlt⟩ := ih h
        exact ⟨c :: front, rfl, by rw [hoffset, byteLength_cons, Nat.add_assoc], by omega⟩
    · obtain ⟨front, rfl, hoffset, hlt⟩ := ih h
      exact ⟨c :: front, rfl, by rw [hoffset, byteLength_cons, Nat.add_assoc], by omega⟩

theorem pairwise_breaks (offset : Nat) (text : List Char) :
    (breaks offset text).Pairwise fun a b ↦ a.offset < b.offset := by
  induction text generalizing offset with
  | nil => exact .nil
  | cons c text ih =>
    rw [breaks]
    split
    · refine .cons (fun l hl ↦ ?_) (ih _)
      obtain ⟨-, -, -, hlt⟩ := exists_front_of_mem_breaks hl
      exact hlt
    · exact ih _

/-! ## The search -/

/-- The line in `lines` that an offset is in, with the lines before it and the lines behind it. -/
structure Holds (lines : List LineStart) (offset : Nat) (before : List LineStart) (line : LineStart)
    (after : List LineStart) : Prop where
  /-- The line is one of them. -/
  split : lines = before ++ line :: after
  /-- The lines before it start no later than the offset. -/
  before_le : ∀ l ∈ before, l.offset ≤ offset
  /-- It starts no later than the offset itself. -/
  le : line.offset ≤ offset
  /-- The lines behind it start later. -/
  lt_after : ∀ l ∈ after, offset < l.offset

theorem exists_holds {first : LineStart} {offset : Nat} (hfirst : first.offset ≤ offset) :
    ∀ {lines : List LineStart}, lines.Pairwise (fun a b ↦ a.offset < b.offset) →
      ∃ before line after, Holds (first :: lines) offset before line after := by
  intro lines
  induction lines generalizing first with
  | nil => exact fun _ ↦ ⟨[], first, [], rfl, nofun, hfirst, nofun⟩
  | cons second lines ih =>
    intro hlines
    obtain ⟨hsecond, hlines⟩ := List.pairwise_cons.1 hlines
    by_cases hle : second.offset ≤ offset
    · obtain ⟨before, line, after, hsplit, hbefore, hline, hafter⟩ := ih hle hlines
      refine ⟨first :: before, line, after, by rw [hsplit, List.cons_append], ?_, hline, hafter⟩
      exact List.forall_mem_cons.2 ⟨hfirst, hbefore⟩
    · refine ⟨[], first, second :: lines, rfl, nofun, hfirst, List.forall_mem_cons.2 ⟨by omega, ?_⟩⟩
      intro l hl
      have hlt := hsecond l hl
      omega

variable {map : SourceMap} {offset : Nat} {before after : List LineStart} {line : LineStart}

theorem lineIndex_eq (h : Holds map.lines.toList offset before line after) :
    ∀ fuel lo hi, lo ≤ before.length → before.length < hi → hi ≤ map.lines.size →
      hi - lo ≤ 2 ^ fuel → map.lineIndex offset fuel lo hi = before.length := by
  have hget : ∀ i : Nat, map.lines[i]? = (before ++ line :: after)[i]? := by
    intro i
    rw [← h.split, Array.getElem?_toList]
  intro fuel
  induction fuel with
  | zero =>
    intro lo hi hlo hhi _ hfuel
    rw [lineIndex]
    omega
  | succ fuel ih =>
    intro lo hi hlo hhi hsize hfuel
    have hpow : 2 ^ (fuel + 1) = 2 * 2 ^ fuel := Nat.pow_succ'
    rw [lineIndex]
    split
    · omega
    next hwide =>
      dsimp only
      have hlength : before.length + after.length + 1 = map.lines.size := by
        rw [← Array.length_toList, h.split]
        simp only [List.length_append, List.length_cons]
        omega
      -- the line in the middle is not behind the one looked for exactly when it starts in time
      by_cases hmid : (lo + hi) / 2 ≤ before.length
      · obtain ⟨start, hstart, hle⟩ : ∃ start, map.lines[(lo + hi) / 2]? = some start ∧
            start.offset ≤ offset := by
          rw [hget]
          rcases Nat.lt_or_eq_of_le hmid with hlt | heq
          · rw [List.getElem?_append_left hlt, List.getElem?_eq_getElem hlt]
            exact ⟨_, rfl, h.before_le _ (List.getElem_mem hlt)⟩
          · rw [heq, List.getElem?_append_right le_rfl, Nat.sub_self]
            exact ⟨line, rfl, h.le⟩
        rw [hstart]
        dsimp only
        rw [if_pos hle]
        exact ih _ _ hmid hhi hsize (by omega)
      · obtain ⟨start, hstart, hlt⟩ : ∃ start, map.lines[(lo + hi) / 2]? = some start ∧
            offset < start.offset := by
          obtain ⟨k, hk⟩ := Nat.exists_eq_add_of_lt (Nat.not_le.1 hmid)
          have hindex : k < after.length := by omega
          have hbehind : (lo + hi) / 2 - before.length = k + 1 := by omega
          rw [hget, List.getElem?_append_right (by omega), hbehind, List.getElem?_cons_succ,
            List.getElem?_eq_getElem hindex]
          exact ⟨_, rfl, h.lt_after _ (List.getElem_mem hindex)⟩
        rw [hstart]
        dsimp only
        rw [if_neg (Nat.not_le.2 hlt)]
        exact ih _ _ hlo (by omega) (by omega) (by omega)

theorem lineOf_eq (h : Holds map.lines.toList offset before line after) :
    map.lineOf offset = before.length := by
  have hlength : before.length < map.lines.size := by
    rw [← Array.length_toList, h.split, List.length_append, List.length_cons]
    omega
  have hfuel : map.lines.size ≤ 2 ^ (Nat.log2 map.lines.size + 2) := by
    have hlog := Nat.lt_log2_self (n := map.lines.size)
    rw [Nat.pow_succ]
    omega
  exact lineIndex_eq h _ _ _ (Nat.zero_le _) hlength le_rfl (by omega)

theorem getD_lines (h : Holds map.lines.toList offset before line after) :
    map.lines.getD before.length ⟨0, []⟩ = line := by
  rw [Array.getD_eq_getD_getElem?, ← Array.getElem?_toList, h.split,
    List.getElem?_append_right le_rfl, Nat.sub_self]
  rfl

/-! ## Places in a part of a text

A column is found by walking from the start of the line. If the line is in the part, so is the
walk. -/

/-- The place of a span in the line with this index. -/
def placeIn (index : Nat) (line : LineStart) (span : Span) : Place :=
  let bytes := span.stop - span.start
  match advance? (span.start - line.offset) 0 line.rest with
  | none => ⟨index + 1, wrap (span.start - line.offset + 1), max (wrap bytes) 1⟩
  | some (before, rest) =>
    let width := match advance? bytes 0 rest with
      | some (count, _) => count
      | none => bytes
    ⟨index + 1, wrap (before + 1), max (wrap width) 1⟩

theorem place_eq {span : Span} (h : Holds map.lines.toList span.start before line after) :
    map.place span = placeIn before.length line span := by
  rw [place, lineOf_eq h, getD_lines h]
  rfl

end SourceMap

/-- The span moved on by a number of bytes. -/
def Span.later (n : Nat) (s : Span) : Span :=
  ⟨n + s.start, n + s.stop⟩

namespace SourceMap

theorem placeIn_later {line : LineStart} {span : Span} (index n : Nat) (rest : List Char)
    (hle : line.offset ≤ span.start) (hstart : span.start ≤ span.stop)
    (hstop : span.stop ≤ line.offset + byteLength line.rest) :
    placeIn (n + index) ⟨offset + line.offset, line.rest ++ rest⟩ (span.later offset)
      = { placeIn index line span with line := n + (placeIn index line span).line } := by
  have hbytes : offset + span.stop - (offset + span.start) = span.stop - span.start := by omega
  have hwalk : offset + span.start - (offset + line.offset) = span.start - line.offset := by omega
  rw [placeIn, placeIn, Span.later]
  dsimp only
  rw [hbytes, hwalk, advance?_append (by omega)]
  cases hfront : advance? (span.start - line.offset) 0 line.rest with
  | none => rfl
  | some found =>
    obtain ⟨count, more⟩ := found
    have hlength := byteLength_of_advance? hfront
    rw [Option.map_some]
    dsimp only
    rw [advance?_append (by omega)]
    cases hmore : advance? (span.stop - span.start) 0 more with
    | none => rfl
    | some found => rfl

variable {source : String} {front part back rest : List Char} {span : Span}

/-- The lines of a text that is cut where a line starts. -/
theorem lines_ofSource_append (hsource : source.toList = front ++ rest)
    (hfront : front = [] ∨ front.getLast? = some '\n') :
    ∃ above : List LineStart, above.length = front.count '\n' ∧
      (∀ l ∈ above, l.offset ≤ byteLength front) ∧
      (ofSource source).lines.toList
        = above ++ ⟨byteLength front, rest⟩ :: breaks (byteLength front) rest := by
  rw [ofSource_eq, hsource, List.toList_toArray]
  rcases hfront with rfl | hfront
  · exact ⟨[], rfl, nofun, rfl⟩
  · obtain ⟨init, rfl⟩ := List.getLast?_eq_some_iff.1 hfront
    refine ⟨⟨0, init ++ ['\n'] ++ rest⟩ ::
      (breaks 0 init).map (fun l ↦ ⟨l.offset, l.rest ++ ('\n' :: rest)⟩), ?_, ?_, ?_⟩
    · rw [List.length_cons, List.length_map, length_breaks, List.count_append]
      rfl
    · refine List.forall_mem_cons.2 ⟨Nat.zero_le _, fun l hl ↦ ?_⟩
      obtain ⟨line, hline, rfl⟩ := List.mem_map.1 hl
      obtain ⟨more, rfl, hoffset, -⟩ := exists_front_of_mem_breaks hline
      show line.offset ≤ _
      rw [hoffset, byteLength_append, byteLength_append]
      omega
    · have hlength : byteLength (init ++ ['\n']) = 0 + byteLength init + '\n'.utf8Size := by
        rw [byteLength_append, Nat.zero_add]
        rfl
      rw [hlength, List.append_assoc, List.singleton_append, breaks_append, breaks, if_pos rfl,
        List.cons_append]

/-- The line in a part of a text that an offset is in is its line in the text. -/
theorem Holds.within (h : Holds (⟨0, part⟩ :: breaks 0 part) offset before line after)
    (hsource : source.toList = front ++ (part ++ back))
    (hfront : front = [] ∨ front.getLast? = some '\n') (hoffset : offset ≤ byteLength part) :
    ∃ before' after', Holds (ofSource source).lines.toList (byteLength front + offset) before'
        ⟨byteLength front + line.offset, line.rest ++ back⟩ after' ∧
      before'.length = front.count '\n' + before.length := by
  obtain ⟨above, hlength, habove, hlines⟩ := lines_ofSource_append hsource hfront
  -- the lines of the part, at their places in the text
  have hpart : (⟨byteLength front, part ++ back⟩ : LineStart) ::
        (breaks (byteLength front) part).map (fun l ↦ ⟨l.offset, l.rest ++ back⟩)
      = (before ++ line :: after).map fun l ↦ ⟨byteLength front + l.offset, l.rest ++ back⟩ := by
    have hadd := breaks_add (byteLength front) 0 part
    rw [Nat.add_zero] at hadd
    rw [← h.split, hadd, List.map_map]
    rfl
  refine ⟨above ++ before.map fun l ↦ ⟨byteLength front + l.offset, l.rest ++ back⟩,
    after.map (fun l ↦ ⟨byteLength front + l.offset, l.rest ++ back⟩)
      ++ breaks (byteLength front + byteLength part) back, ⟨?_, ?_, ?_, ?_⟩, ?_⟩
  · rw [hlines, breaks_append, ← List.cons_append, hpart, List.map_append, List.map_cons]
    simp only [List.append_assoc, List.cons_append]
  · refine List.forall_mem_append.2 ⟨fun l hl ↦ (habove l hl).trans (Nat.le_add_right _ _), ?_⟩
    refine List.forall_mem_map.2 fun l hl ↦ ?_
    exact Nat.add_le_add_left (h.before_le l hl) _
  · exact Nat.add_le_add_left h.le _
  · refine List.forall_mem_append.2 ⟨List.forall_mem_map.2 fun l hl ↦ ?_, fun l hl ↦ ?_⟩
    · exact Nat.add_lt_add_left (h.lt_after l hl) _
    · obtain ⟨-, -, -, hlt⟩ := exists_front_of_mem_breaks hl
      omega
  · rw [List.length_append, List.length_map, hlength]

/-- A span in a part of a text that starts with a line has the place it has in the part alone, but
for the lines in front. -/
theorem place_within {content : String}
    (hsource : source.toList = front ++ (content.toList ++ back))
    (hfront : front = [] ∨ front.getLast? = some '\n') (hstart : span.start ≤ span.stop)
    (hstop : span.stop ≤ content.utf8ByteSize) :
    (ofSource source).place (span.later (byteLength front))
      = { (ofSource content).place span with
          line := front.count '\n' + ((ofSource content).place span).line } := by
  have hlines : (ofSource content).lines.toList
      = ⟨0, content.toList⟩ :: breaks 0 content.toList := by
    rw [ofSource_eq]
  rw [utf8ByteSize_eq_byteLength] at hstop
  obtain ⟨before, line, after, hline⟩ :=
    @exists_holds ⟨0, content.toList⟩ span.start (Nat.zero_le _) _
      (pairwise_breaks 0 content.toList)
  obtain ⟨before', after', hline', hlength⟩ := hline.within hsource hfront (hstart.trans hstop)
  have hrest : line.offset + byteLength line.rest = byteLength content.toList := by
    have hmem : line ∈ (⟨0, content.toList⟩ : LineStart) :: breaks 0 content.toList := by
      rw [hline.split]
      exact List.mem_append_right _ List.mem_cons_self
    rcases List.mem_cons.1 hmem with rfl | hmem
    · exact Nat.zero_add _
    · obtain ⟨more, hmore, hoffset, -⟩ := exists_front_of_mem_breaks hmem
      rw [hmore, byteLength_append, hoffset, Nat.zero_add]
  rw [← hlines] at hline
  rw [place_eq hline, place_eq hline', hlength]
  exact placeIn_later _ _ _ hline.le hstart (by omega)

end SourceMap

end CharacterScript
