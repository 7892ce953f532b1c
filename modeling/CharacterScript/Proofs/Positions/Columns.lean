import CharacterScript.Proofs.Bytes
import CharacterScript.Proofs.Positions.Lines
import Mathlib.Data.List.DropRight

/-!
# The line and column of an offset

Whatever the scan for markers is in the middle of, it leaves no line out: the starts of lines are
where the text has its line breaks (`SourceMap.ofSource_eq`). So the line of an offset counts the
line breaks in front of it, also when the offset is inside of a character, and the column counts the
characters since the last of them (`SourceMap.lineCol_exact`).

## Inside of characters

An offset need not be at the boundary of a character, because a span may be asked for that no
token has. The line of such an offset is that of the character it is in. Its column counts
characters up to a boundary and bytes behind the last one.
-/

namespace CharacterScript

namespace SourceMap

/-! ## Counting lines

Lines are counted by the line feeds in front of the offset, in bytes, since an offset is a number
of bytes. -/

theorem count_lineBreak (c : Char) (n : Nat) :
    ((String.utf8EncodeChar c).take n).count 10 = if c = '\n' ∧ 0 < n then 1 else 0 := by
  by_cases hc : c = '\n'
  · subst hc
    have hcode : String.utf8EncodeChar '\n' = [10] := rfl
    rw [hcode]
    cases n <;> simp
  · rw [if_neg fun h ↦ hc h.1, List.count_eq_zero]
    intro hmem
    exact hc (Char.toNat_inj.1 ((mem_encodeChar_iff (by decide)).1 (List.mem_of_mem_take hmem)))

/-- The lines that start no later than an offset are as many as the line breaks in the bytes in
front of it. -/
theorem countP_breaks (start n : Nat) (text : List Char) :
    (breaks start text).countP (·.offset ≤ start + n) = ((utf8 text).take n).count 10 := by
  induction text generalizing start n with
  | nil => simp [breaks, utf8]
  | cons c text ih =>
    -- what starts behind the character
    have hrest : (breaks (start + c.utf8Size) text).countP (·.offset ≤ start + n)
        = ((utf8 text).take (n - c.utf8Size)).count 10 := by
      rw [← ih]
      refine List.countP_congr fun l hl ↦ ?_
      obtain ⟨-, -, -, hlt⟩ := exists_front_of_mem_breaks hl
      simp only [decide_eq_true_eq]
      omega
    rw [utf8_cons, List.take_append, String.length_utf8EncodeChar, List.count_append,
      count_lineBreak, ← hrest, breaks]
    by_cases hc : c = '\n'
    · subst hc
      have hsize : '\n'.utf8Size = 1 := rfl
      have hhead : start + 1 ≤ start + n ↔ 0 < n := by omega
      rw [if_pos rfl, List.countP_cons, Nat.add_comm, hsize]
      simp only [decide_eq_true_eq, hhead, true_and]
    · rw [if_neg hc, if_neg fun h ↦ hc h.1, Nat.zero_add]

variable {lines before after : List LineStart} {line : LineStart} {offset : Nat}

/-- The line of an offset is the last one that starts no later. -/
theorem Holds.countP_eq (h : Holds lines offset before line after) :
    lines.countP (·.offset ≤ offset) = before.length + 1 := by
  have hbefore : before.countP (·.offset ≤ offset) = before.length :=
    List.countP_eq_length.2 fun l hl ↦ decide_eq_true (h.before_le l hl)
  have hafter : after.countP (·.offset ≤ offset) = 0 :=
    List.countP_eq_zero.2 fun l hl ↦ by simpa using h.lt_after l hl
  rw [h.split, List.countP_append, List.countP_cons, hbefore, hafter, if_pos (decide_eq_true h.le),
    Nat.zero_add]

theorem lineOf_ofSource (source : String) (offset : Nat) :
    (ofSource source).lineOf offset = (source.toUTF8.data.toList.take offset).count 10 := by
  obtain ⟨before, line, after, hline⟩ := @exists_holds ⟨0, source.toList⟩ offset (Nat.zero_le _) _
    (pairwise_breaks 0 source.toList)
  have hcount := hline.countP_eq
  have hbreaks := countP_breaks 0 offset source.toList
  rw [Nat.zero_add] at hbreaks
  rw [List.countP_cons, if_pos (decide_eq_true (Nat.zero_le _)), hbreaks] at hcount
  have hlines : (ofSource source).lines.toList = ⟨0, source.toList⟩ :: breaks 0 source.toList := by
    rw [ofSource_eq]
  rw [lineOf_eq (hlines ▸ hline), toList_toUTF8]
  omega

/-! ## Counting characters -/

theorem breaks_eq_nil {start : Nat} {text : List Char} (h : '\n' ∉ text) :
    breaks start text = [] := by
  rw [← List.length_eq_zero_iff, length_breaks, List.count_eq_zero]
  exact h

theorem advance?_byteLength (count : Nat) (text rest : List Char) :
    advance? (byteLength text) count (text ++ rest) = some (count + text.length, rest) := by
  induction text generalizing count with
  | nil => cases rest <;> simp [advance?, byteLength]
  | cons c text ih =>
    have hpos := c.utf8Size_pos
    rw [byteLength_cons, List.cons_append, advance?, if_neg (by omega), if_pos (by omega),
      Nat.add_sub_cancel_left, ih, List.length_cons]
    congr 2
    omega

/-- Before the characters of its last line a text is empty or ends in a line break. -/
theorem rdropWhile_lineBreak (text : List Char) :
    text.rdropWhile (· != '\n') = [] ∨ (text.rdropWhile (· != '\n')).getLast? = some '\n' := by
  rcases List.eq_nil_or_concat (text.rdropWhile (· != '\n')) with h | ⟨init, c, h⟩
  · exact .inl h
  · refine .inr ?_
    have hlast := List.rdropWhile_last_not (· != '\n') text (by rw [h]; simp)
    simp only [h, List.concat_eq_append, List.getLast_concat, bne_iff_ne, ne_eq, not_not] at hlast
    rw [h, hlast, List.concat_eq_append, List.getLast?_concat]

theorem column_lineCol {source : String} {front back : List Char}
    (hsource : source.toList = front ++ back) :
    ((ofSource source).lineCol (byteLength front)).2
      = wrap (1 + (front.rtakeWhile (· != '\n')).length) := by
  obtain ⟨above, hline⟩ : ∃ above, above = front.rdropWhile (· != '\n') := ⟨_, rfl⟩
  obtain ⟨tail, htail⟩ : ∃ tail, tail = front.rtakeWhile (· != '\n') := ⟨_, rfl⟩
  have hbreak : '\n' ∉ tail := fun h ↦ by
    have hkept := List.mem_rtakeWhile_imp (htail ▸ h)
    simp at hkept
  have hfront : above ++ tail = front := by
    rw [hline, htail]
    exact List.rdropWhile_append_rtakeWhile
  have hcut : source.toList = above ++ (tail ++ back) := by
    rw [hsource, ← hfront, List.append_assoc]
  obtain ⟨before, -, hbefore, hlines⟩ :=
    lines_ofSource_append hcut (hline ▸ rdropWhile_lineBreak front)
  -- the offset is in the line that the characters behind the last line break start
  have hholds : Holds (ofSource source).lines.toList (byteLength front) before
      ⟨byteLength above, tail ++ back⟩ (breaks (byteLength front) back) := by
    have hlength : byteLength above ≤ byteLength front := by
      rw [← hfront, byteLength_append]
      exact Nat.le_add_right _ _
    refine ⟨?_, fun l hl ↦ (hbefore l hl).trans hlength, hlength, fun l hl ↦ ?_⟩
    · rw [hlines, breaks_append, breaks_eq_nil hbreak, ← hfront, byteLength_append]
      rfl
    · obtain ⟨-, -, -, hlt⟩ := exists_front_of_mem_breaks hl
      exact hlt
  have hwalk : byteLength front - byteLength above = byteLength tail := by
    rw [← hfront, byteLength_append, Nat.add_sub_cancel_left]
  rw [lineCol, place_eq hholds, placeIn]
  dsimp only
  rw [hwalk, advance?_byteLength, ← htail, Nat.zero_add, Nat.add_comm 1]

/-! ## Both -/

/-- The line of an offset is one more than the line breaks among the bytes in front of it. Its
column, at the boundary of a character, is one more than the characters since the last of them, as
far as 32 bits can hold it. Nothing is asked of the text: comments and text literals may be left
open. -/
theorem lineCol_exact (source : String) (offset : Nat) :
    ((ofSource source).lineCol offset).1 = 1 + (source.toUTF8.data.toList.take offset).count 10 ∧
      ∀ front back, source.toList = front ++ back → byteLength front = offset →
        ((ofSource source).lineCol offset).2 = wrap (1 + (front.rtakeWhile (· != '\n')).length) ∧
          (1 + (front.rtakeWhile (· != '\n')).length < 2 ^ 32 →
            ((ofSource source).lineCol offset).2 = 1 + (front.rtakeWhile (· != '\n')).length) := by
  constructor
  · rw [lineCol, place, lineOf_ofSource, Nat.add_comm]
    dsimp only
    split <;> rfl
  · rintro front back hsource rfl
    refine ⟨column_lineCol hsource, fun hsmall ↦ ?_⟩
    rw [column_lineCol hsource]
    exact Nat.mod_eq_of_lt hsmall

/-- The end of a text with a comment that is left open. -/
theorem lineCol_exact_sample : (ofSource "/* é\nab").lineCol 8 = (2, 3) := by
  obtain ⟨hline, hcolumn⟩ := lineCol_exact "/* é\nab" 8
  rw [toList_toUTF8] at hline
  exact Prod.ext hline ((hcolumn "/* é\nab".toList [] rfl rfl).2 (by decide))

end SourceMap

end CharacterScript
