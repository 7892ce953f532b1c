import CharacterScript.Proofs.Bytes
import CharacterScript.Proofs.Words
import Mathlib.Data.List.SplitBy

/-!
# The words among the bytes of a text

Cut the bytes of a text into runs of word bytes, as long as they can be, and single bytes between
them. There is one such cut (`Word.isCut_iff`), and looking for a word and replacing it go by its
pieces alone (`wholeWords`): the search goes from match to match through the text, but no match it
passes over hides a run that is the word.

The runs of bytes are the words of the text one by one, because word characters are single bytes and
no byte of another character is a word byte (`Word.isWordByte_of_mem`).

## Two searches

The search of the program goes over characters with what stands before and behind, and the cut is
made of bytes. They are brought together on runs: a run of word bytes is one piece of the cut and
one word of the text. An occurrence that stands alone is a whole run, because both of its
neighbours are no word bytes.
-/

namespace CharacterScript

namespace Word

/-! ## Cutting bytes

Two neighbouring runs would be one longer run, so in a cut they never stand side by side. That
makes the cut unique. -/

/-- A byte that is a letter, a digit or an underscore. -/
def isWordByte (b : UInt8) : Bool :=
  (48 ≤ b && b ≤ 57) || (65 ≤ b && b ≤ 90) || (97 ≤ b && b ≤ 122) || b == 95

/-- A run of word bytes. -/
def IsByteRun (piece : List UInt8) : Prop :=
  piece ≠ [] ∧ ∀ b ∈ piece, isWordByte b = true

/-- The bytes are cut into runs of word bytes and other bytes. No run could be longer: two of them
never stand side by side. -/
structure IsCut (bytes : List UInt8) (pieces : List (List UInt8)) : Prop where
  /-- Put together again, the pieces are the bytes. -/
  flatten : pieces.flatten = bytes
  /-- A piece is a run of word bytes or one byte of another kind. -/
  piece : ∀ p ∈ pieces, IsByteRun p ∨ ∃ b, p = [b] ∧ isWordByte b = false
  /-- Two runs never stand side by side. -/
  apart : pieces.IsChain fun p q ↦ ¬(IsByteRun p ∧ IsByteRun q)

/-- Word bytes side by side belong together. -/
def together (a b : UInt8) : Bool :=
  isWordByte a && isWordByte b

def pieces (bytes : List UInt8) : List (List UInt8) :=
  bytes.splitBy together

theorem isChain_together {p : List UInt8} (h : ∀ b ∈ p, isWordByte b = true) :
    p.IsChain fun a b ↦ together a b = true := by
  refine List.Pairwise.isChain (List.pairwise_of_forall_mem_list fun a ha b hb ↦ ?_)
  rw [together, h a ha, h b hb]
  rfl

/-- Bytes that belong together are a run, or there is only one of them. -/
theorem isByteRun_of_isChain {p : List UInt8} (hne : p ≠ [])
    (h : p.IsChain fun a b ↦ together a b = true) :
    IsByteRun p ∨ ∃ b, p = [b] ∧ isWordByte b = false := by
  induction p with
  | nil => exact absurd rfl hne
  | cons a p ih =>
    cases p with
    | nil =>
      cases ha : isWordByte a with
      | false => exact .inr ⟨a, rfl, ha⟩
      | true => exact .inl ⟨hne, by simpa using ha⟩
    | cons b p =>
      obtain ⟨hab, hp⟩ := List.isChain_cons_cons.1 h
      obtain ⟨ha, hb⟩ := Bool.and_eq_true_iff.1 hab
      rcases ih (List.cons_ne_nil b p) hp with ⟨-, hrun⟩ | ⟨d, hd, hword⟩
      · exact .inl ⟨hne, List.forall_mem_cons.2 ⟨ha, hrun⟩⟩
      · cases hd
        rw [hb] at hword
        cases hword

/-- There is one cut. -/
theorem isCut_iff {bytes : List UInt8} {ps : List (List UInt8)} :
    IsCut bytes ps ↔ ps = pieces bytes := by
  rw [eq_comm, pieces, List.splitBy_eq_iff]
  constructor
  · intro h
    have hne : ∀ p ∈ ps, p ≠ [] := fun p hp ↦ by
      rcases h.piece p hp with hrun | ⟨b, rfl, -⟩
      · exact hrun.1
      · exact List.cons_ne_nil b []
    refine ⟨h.flatten.symm, fun hnil ↦ hne _ hnil rfl, fun p hp ↦ ?_, ?_⟩
    · rcases h.piece p hp with hrun | ⟨b, rfl, -⟩
      · exact isChain_together hrun.2
      · exact List.isChain_singleton b
    · refine h.apart.imp_of_mem_imp fun p q hp hq hpq ↦ ⟨hne p hp, hne q hq, ?_⟩
      rw [together, Bool.and_eq_false_iff]
      rcases h.piece p hp with hrun | ⟨b, rfl, hb⟩
      · rcases h.piece q hq with hrun' | ⟨b, rfl, hb⟩
        · exact absurd ⟨hrun, hrun'⟩ hpq
        · exact .inr hb
      · exact .inl hb
  · rintro ⟨hflatten, hnil, hchain, hapart⟩
    refine ⟨hflatten.symm, fun p hp ↦ ?_, hapart.imp ?_⟩
    · exact isByteRun_of_isChain (fun h ↦ hnil (h ▸ hp)) (hchain p hp)
    · rintro p q ⟨hp, hq, hpq⟩ ⟨hrun, hrun'⟩
      rw [together, hrun.2 _ (List.getLast_mem hp), hrun'.2 _ (List.head_mem hq)] at hpq
      cases hpq

/-! ## Bytes and characters -/

theorem isWordByte_ascii : ∀ n < 128, isWordByte (UInt8.ofNat n) = isWordChar (Char.ofNat n) := by
  decide

/-- The bytes of a character are word bytes if it is a word character. -/
theorem isWordByte_of_mem {c : Char} {b : UInt8} (hb : b ∈ String.utf8EncodeChar c) :
    isWordByte b = isWordChar c := by
  by_cases hc : c.toNat < 128
  · rw [encodeChar_ascii hc, List.mem_singleton] at hb
    rw [hb, isWordByte_ascii _ hc, Char.ofNat_toNat]
  · have hlarge := le_of_mem_encodeChar (Nat.not_lt.1 hc) hb
    have hbyte : isWordByte b = false := by
      simp only [isWordByte, Bool.or_eq_false_iff, Bool.and_eq_false_iff, decide_eq_false_iff_not,
        beq_eq_false_iff_ne, UInt8.le_iff_toNat_le, ne_eq, ← UInt8.toNat_inj]
      simp only [UInt8.reduceToNat]
      omega
    have hchar : isWordChar c = false := by
      refine Bool.eq_false_iff.2 fun h ↦ hc ?_
      exact (isWordChar_range h).2
    rw [hbyte, hchar]

/-! ## Runs and words -/

variable {w : List Char} {c : Char}

/-- What does not belong together at the seam is cut on its own. -/
theorem pieces_append {front back : List UInt8}
    (h : (∀ b ∈ front, isWordByte b = false) ∨ ∀ b ∈ back.head?, isWordByte b = false) :
    pieces (front ++ back) = pieces front ++ pieces back := by
  refine List.splitBy_append fun a ha b hb ↦ ?_
  rw [together, Bool.and_eq_false_iff]
  exact h.imp (fun h ↦ h a (List.mem_of_mem_getLast? ha)) fun h ↦ h b hb

/-- The pieces of a word: the word. -/
theorem pieces_run (hw : IsRun w) : pieces (utf8 w) = if w = [] then [] else [utf8 w] := by
  cases w with
  | nil => rfl
  | cons c w =>
    rw [if_neg (List.cons_ne_nil c w)]
    refine (isCut_iff.1 ⟨?_, fun p hp ↦ .inl ⟨?_, ?_⟩, List.isChain_singleton _⟩).symm
    · rw [List.flatten_singleton]
    · rw [List.mem_singleton.1 hp, utf8_cons]
      exact List.append_ne_nil_of_left_ne_nil String.utf8EncodeChar_ne_nil _
    · intro b hb
      rw [List.mem_singleton.1 hp] at hb
      obtain ⟨d, hd, hb⟩ := List.mem_flatMap.1 hb
      rw [isWordByte_of_mem hb]
      exact hw d hd

/-- Bytes that are in no word stay single. -/
theorem pieces_other {bytes : List UInt8} (h : ∀ b ∈ bytes, isWordByte b = false) :
    pieces bytes = bytes.map fun b ↦ [b] := by
  refine (isCut_iff.1 ⟨List.flatMap_singleton' bytes, ?_, ?_⟩).symm
  · refine List.forall_mem_map.2 fun b hb ↦ .inr ⟨b, rfl, h b hb⟩
  · refine List.Pairwise.isChain (List.pairwise_of_forall_mem_list ?_)
    refine List.forall_mem_map.2 fun b hb ↦ fun _ _ hrun ↦ ?_
    exact absurd (hrun.1.2 b List.mem_cons_self) (by simp [h b hb])

/-- A character that is part of no word parts the pieces in front of it from those behind. -/
theorem pieces_utf8_append (hc : isWordChar c = false) (front back : List Char) :
    pieces (utf8 (front ++ c :: back))
      = pieces (utf8 front) ++ ((String.utf8EncodeChar c).map fun b ↦ [b]) ++
        pieces (utf8 back) := by
  have hother : ∀ b ∈ String.utf8EncodeChar c, isWordByte b = false := fun b hb ↦
    (isWordByte_of_mem hb).trans hc
  have hhead : ∀ b ∈ (String.utf8EncodeChar c ++ utf8 back).head?, isWordByte b = false := by
    intro b hb
    rw [List.head?_append_of_ne_nil _ String.utf8EncodeChar_ne_nil] at hb
    exact hother b (List.mem_of_mem_head? hb)
  rw [utf8_append, utf8_cons, pieces_append (.inr hhead), pieces_append (.inl hother),
    pieces_other hother, List.append_assoc]

theorem utf8_injective : Function.Injective utf8 := by
  intro a b h
  have hbytes : (String.ofList a).toUTF8.data.toList = (String.ofList b).toUTF8.data.toList := by
    rw [toList_toUTF8, toList_toUTF8, String.toList_ofList, String.toList_ofList, h]
  have htext : String.ofList a = String.ofList b :=
    String.toByteArray_inj.1 (ByteArray.ext (Array.toList_inj.1 hbytes))
  exact String.ofList_injective htext

variable {word : List Char}

/-- A byte of a character that is part of no word is not the word. -/
theorem utf8_ne_single (hword : IsRun word) (hc : isWordChar c = false) {b : UInt8}
    (hb : b ∈ String.utf8EncodeChar c) : utf8 word ≠ [b] := by
  intro h
  have hmem : b ∈ utf8 word := by
    rw [h]
    exact List.mem_cons_self
  obtain ⟨d, hd, hbd⟩ := List.mem_flatMap.1 hmem
  have hsame := (isWordByte_of_mem hbd).symm.trans (isWordByte_of_mem hb)
  rw [hword d hd, hc] at hsame
  cases hsame

/-- The runs among the bytes are the words among the characters. -/
theorem mem_pieces_iff (hword : IsRun word) (text : List Char) :
    utf8 word ∈ pieces (utf8 text) ↔ word ∈ runs text := by
  have hrun : ∀ {w}, IsRun w → (utf8 word ∈ pieces (utf8 w) ↔ word ∈ runs w) := fun {w} hw ↦ by
    rw [pieces_run hw, mem_runs_run hw]
    split
    next heq => simp [heq]
    next heq => simp [heq, utf8_injective.eq_iff]
  induction text using induction_on with
  | run w hw => exact hrun hw
  | step w c rest hw hc ih =>
    have hother : utf8 word ∉ (String.utf8EncodeChar c).map fun b ↦ [b] := by
      intro hmem
      obtain ⟨b, hb, heq⟩ := List.mem_map.1 hmem
      exact utf8_ne_single hword hc hb heq.symm
    rw [pieces_utf8_append hc, runs_append hc, List.mem_append, List.mem_append, List.mem_append,
      or_iff_left hother]
    exact or_congr (hrun hw) ih

/-- Something in place of the runs that are a word, byte by byte and character by character. -/
theorem flatMap_pieces (hword : IsRun word) (replacement text : List Char) :
    (pieces (utf8 text)).flatMap (fun p ↦ if p = utf8 word then utf8 replacement else p)
      = utf8 (mapRuns (fun w ↦ if w = word then replacement else w) text) := by
  have hrun : ∀ {w}, IsRun w →
      (pieces (utf8 w)).flatMap (fun p ↦ if p = utf8 word then utf8 replacement else p)
        = utf8 (put (fun w ↦ if w = word then replacement else w) w) := fun {w} hw ↦ by
    rw [pieces_run hw]
    cases w with
    | nil => rfl
    | cons d w =>
      rw [if_neg (List.cons_ne_nil d w), List.flatMap_singleton]
      show _ = utf8 (if d :: w = word then replacement else d :: w)
      by_cases heq : d :: w = word
      · rw [if_pos heq, if_pos (congrArg utf8 heq)]
      · rw [if_neg heq, if_neg fun h ↦ heq (utf8_injective h)]
  induction text using induction_on with
  | run w hw => rw [hrun hw, mapRuns_run hw]
  | step w c rest hw hc ih =>
    have hother : ((String.utf8EncodeChar c).map fun b ↦ [b]).flatMap
        (fun p ↦ if p = utf8 word then utf8 replacement else p) = String.utf8EncodeChar c := by
      rw [List.flatMap_map]
      refine (List.flatMap_congr fun b hb ↦ ?_).trans (List.flatMap_singleton' _)
      exact if_neg (utf8_ne_single hword hc hb).symm
    rw [pieces_utf8_append hc, mapRuns_append hc, mapRuns_run hw, List.flatMap_append,
      List.flatMap_append, hrun hw, hother, ih, utf8_append, utf8_cons, List.append_assoc]

end Word

/-- Looking for a word and replacing it go piece by piece: the bytes of any text are cut in one way
into runs of word bytes and the bytes between them, the word stands in the text if it is one of
these runs, and replacing it puts the replacement in place of the runs that are the word and leaves
all else as it is. -/
theorem wholeWords {word : String} (h : IsName word) (text replacement : String) :
    ∃ pieces, Word.IsCut text.toUTF8.data.toList pieces ∧
      (∀ other, Word.IsCut text.toUTF8.data.toList other → other = pieces) ∧
      (containsWord text word = true ↔ word.toUTF8.data.toList ∈ pieces) ∧
      (replaceWord text word replacement).toUTF8.data.toList = pieces.flatMap fun piece ↦
        if piece = word.toUTF8.data.toList then replacement.toUTF8.data.toList else piece := by
  refine ⟨Word.pieces text.toUTF8.data.toList, Word.isCut_iff.2 rfl,
    fun other ↦ Word.isCut_iff.1, ?_, ?_⟩
  · rw [containsWord_iff h, mem_wordsOf, toList_toUTF8, toList_toUTF8,
      Word.mem_pieces_iff h.isWord]
  · rw [replaceWord, Word.cut_eq_marked h.isWord h.toList_ne_nil,
      Word.render_marked h.toList_ne_nil, toList_toUTF8, toList_toUTF8, toList_toUTF8,
        toList_toUTF8,
      String.toList_ofList, Word.flatMap_pieces h.isWord]

/-- The word alone, and twice without a gap. -/
theorem wholeWords_sample : IsName "AB" ∧ containsWord "AB+ABAB" "AB" = true ∧
    (replaceWord "AB+ABAB" "AB" "é").toUTF8.data.toList = "é+ABAB".toUTF8.data.toList := by
  have hname : IsName "AB" := by decide
  obtain ⟨pieces, hcut, -, hcontains, hreplace⟩ := wholeWords hname "AB+ABAB" "é"
  have hpieces : pieces = [[65, 66], [43], [65, 66, 65, 66]] :=
    (Word.isCut_iff.1 hcut).trans (by decide +kernel)
  rw [hpieces] at hcontains hreplace
  exact ⟨hname, hcontains.2 (by decide +kernel), hreplace.trans (by decide +kernel)⟩

end CharacterScript
