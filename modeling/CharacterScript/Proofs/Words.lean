import CharacterScript.Proofs.Lexemes
import CharacterScript.Text.Word
import Mathlib.Data.List.Basic

/-!
# The words of a text

A text is made of words, as long as they can be, and of the characters between them. `mapWords` puts
something else in place of each word. Replacing one word wherever it stands alone is a case of this
(`replaceWord_eq_mapWords`), though the search that does it knows nothing of words: it goes on from
match to match, also inside of longer words.

## Splitting

Everything about the words of a text follows from what happens at one character that is part of no
word: such a character splits a text into two that have nothing to do with each other. In
particular, what is put in place of one word never makes a new word with what stands next to it, so
replacing twice is replacing once (`mapWords_mapWords`).

## The search as a function of words

The search for one word passes over a longer word that starts with it, and comes out of it in the
middle. So it is followed through a run with the state it has there, and at the end of the run it
is back in the state it was in before. Between runs it does nothing.
-/

namespace CharacterScript

namespace Word

/-! ## Splitting a text

The induction on texts is one on runs and on the characters between them. -/

/-- A stretch of word characters. -/
def IsRun (w : List Char) : Prop :=
  ∀ c ∈ w, isWordChar c = true

/-- The word a text starts with and, for each character that is part of no word, the one behind it.
These words can be empty. -/
def split : List Char → List Char × List (Char × List Char)
  | [] => ([], [])
  | c :: cs =>
    if isWordChar c then (c :: (split cs).1, (split cs).2)
    else ([], (c, (split cs).1) :: (split cs).2)

variable {w : List Char} {c : Char}

theorem split_run (hw : IsRun w) : split w = (w, []) := by
  induction w with
  | nil => rfl
  | cons d w ih =>
    obtain ⟨hd, hw⟩ := List.forall_mem_cons.1 hw
    rw [split, if_pos hd, ih hw]

theorem split_append (hw : IsRun w) (hc : isWordChar c = false) (rest : List Char) :
    split (w ++ c :: rest) = (w, (c, (split rest).1) :: (split rest).2) := by
  induction w with
  | nil => rw [List.nil_append, split, if_neg (by rw [hc]; exact Bool.false_ne_true)]
  | cons d w ih =>
    obtain ⟨hd, hw⟩ := List.forall_mem_cons.1 hw
    rw [List.cons_append, split, if_pos hd, ih hw]

/-- A text is a word, or a word before another character and a shorter text. -/
theorem induction_on {P : List Char → Prop} (run : ∀ w, IsRun w → P w)
    (step : ∀ w c rest, IsRun w → isWordChar c = false → P rest → P (w ++ c :: rest)) :
    ∀ text, P text := by
  intro text
  induction hn : text.length using Nat.strong_induction_on generalizing text with
  | _ n ih =>
    have hw : IsRun (text.takeWhile isWordChar) := fun c hc ↦ List.mem_takeWhile_imp hc
    rw [← List.takeWhile_append_dropWhile (p := isWordChar) (l := text)] at hn ⊢
    cases hrest : text.dropWhile isWordChar with
    | nil =>
      rw [List.append_nil]
      exact run _ hw
    | cons c rest =>
      have hc : isWordChar c = false := by
        have hhead := List.head?_dropWhile_not isWordChar text
        rw [hrest] at hhead
        simpa using hhead
      rw [hrest] at hn
      exact step _ c rest hw hc (ih rest.length (by simp at hn; omega) rest rfl)

/-! ## Putting something in place of words -/

/-- What is put in place of a word; nothing in place of an empty one. -/
def put (f : List Char → List Char) (w : List Char) : List Char :=
  if w.isEmpty then [] else f w

/-- The text with something put in place of each of its words. -/
def mapRuns (f : List Char → List Char) (text : List Char) : List Char :=
  put f (split text).1 ++ (split text).2.flatMap fun e ↦ e.1 :: put f e.2

/-- The words of a text, in order. -/
def runs (text : List Char) : List (List Char) :=
  ((split text).1 :: (split text).2.map (·.2)).filter (!·.isEmpty)

section

variable {f g : List Char → List Char}

theorem mapRuns_run (hw : IsRun w) : mapRuns f w = put f w := by
  rw [mapRuns, split_run hw, List.flatMap_nil, List.append_nil]

private theorem mapRuns_run_append (hw : IsRun w) (hc : isWordChar c = false) (rest : List Char) :
    mapRuns f (w ++ c :: rest) = put f w ++ c :: mapRuns f rest := by
  rw [mapRuns, split_append hw hc, List.flatMap_cons]
  rfl

/-- A character that is part of no word splits a text. -/
theorem mapRuns_append (hc : isWordChar c = false) (a b : List Char) :
    mapRuns f (a ++ c :: b) = mapRuns f a ++ c :: mapRuns f b := by
  induction a using induction_on with
  | run w hw => rw [mapRuns_run_append hw hc, mapRuns_run hw]
  | step w d rest hw hd ih =>
    rw [List.append_assoc, List.cons_append, mapRuns_run_append hw hd, ih,
      mapRuns_run_append hw hd, List.append_assoc, List.cons_append]

theorem runs_run (hw : IsRun w) : runs w = if w.isEmpty then [] else [w] := by
  rw [runs, split_run hw]
  cases w <;> rfl

private theorem runs_run_append (hw : IsRun w) (hc : isWordChar c = false) (rest : List Char) :
    runs (w ++ c :: rest) = runs w ++ runs rest := by
  rw [runs, split_append hw hc, runs_run hw, runs]
  cases w <;> rfl

theorem runs_append (hc : isWordChar c = false) (a b : List Char) :
    runs (a ++ c :: b) = runs a ++ runs b := by
  induction a using induction_on with
  | run w hw => exact runs_run_append hw hc b
  | step w d rest hw hd ih =>
    rw [List.append_assoc, List.cons_append, runs_run_append hw hd, ih, runs_run_append hw hd,
      List.append_assoc]

theorem mem_runs_run {u : List Char} (hu : IsRun u) : w ∈ runs u ↔ w = u ∧ u ≠ [] := by
  rw [runs_run hu]
  cases u <;> simp

/-- Words are stretches of word characters, and not empty. -/
theorem isRun_of_mem_runs {text : List Char} (h : w ∈ runs text) : IsRun w ∧ w ≠ [] := by
  have hrun : ∀ {u}, IsRun u → w ∈ runs u → IsRun w ∧ w ≠ [] := fun hu hmem ↦ by
    obtain ⟨rfl, hne⟩ := (mem_runs_run hu).1 hmem
    exact ⟨hu, hne⟩
  induction text using induction_on with
  | run u hu => exact hrun hu h
  | step u d rest hu hd ih =>
    rw [runs_append hd, List.mem_append] at h
    exact h.elim (hrun hu) ih

/-- Only what is put in place of the words that are there counts. -/
theorem mapRuns_congr {text : List Char} (h : ∀ w ∈ runs text, f w = g w) :
    mapRuns f text = mapRuns g text := by
  have hput : ∀ {u}, IsRun u → (∀ w ∈ runs u, f w = g w) → put f u = put g u := fun {u} hu hmem ↦ by
    cases u with
    | nil => rfl
    | cons d u => exact hmem _ ((mem_runs_run hu).2 ⟨rfl, List.cons_ne_nil d u⟩)
  induction text using induction_on with
  | run u hu => rw [mapRuns_run hu, mapRuns_run hu, hput hu h]
  | step u d rest hu hd ih =>
    rw [runs_append hd, List.forall_mem_append] at h
    rw [mapRuns_append hd, mapRuns_append hd, mapRuns_run hu, mapRuns_run hu, hput hu h.1, ih h.2]

theorem mapRuns_id (text : List Char) : mapRuns id text = text := by
  have hput : ∀ u, put id u = u := fun u ↦ by cases u <;> rfl
  induction text using induction_on with
  | run u hu => rw [mapRuns_run hu, hput]
  | step u d rest hu hd ih => rw [mapRuns_append hd, mapRuns_run hu, hput, ih]

/-- Putting something in place of words twice is doing so once. -/
theorem mapRuns_mapRuns (text : List Char) :
    mapRuns g (mapRuns f text) = mapRuns (fun w ↦ mapRuns g (f w)) text := by
  have hput : ∀ u, mapRuns g (put f u) = put (fun w ↦ mapRuns g (f w)) u := fun u ↦ by
    cases u <;> rfl
  induction text using induction_on with
  | run u hu => rw [mapRuns_run hu, mapRuns_run hu, hput]
  | step u d rest hu hd ih =>
    -- the character between the words is still there, and splits what was put in
    rw [mapRuns_append hd, mapRuns_append hd, mapRuns_append hd, mapRuns_run hu, mapRuns_run hu,
      hput, ih]

/-- The words of the new text are those of what was put in place of the words. -/
theorem runs_mapRuns (text : List Char) :
    runs (mapRuns f text) = (runs text).flatMap fun w ↦ runs (f w) := by
  have hput : ∀ {u}, IsRun u → runs (put f u) = (runs u).flatMap fun w ↦ runs (f w) := by
    intro u hu
    rw [runs_run hu]
    cases u with
    | nil => rfl
    | cons d u => exact (List.append_nil _).symm
  induction text using induction_on with
  | run u hu => rw [mapRuns_run hu, hput hu]
  | step u d rest hu hd ih =>
    rw [mapRuns_append hd, runs_append hd, runs_append hd, mapRuns_run hu, hput hu, ih,
      List.flatMap_append]

end

/-! ## The search for one word

A match inside a run counts if it is all of the run. Whether it is can be seen from the two
characters beside it. -/

section

variable {word : List Char} {before : Option Char}

/-- The parts of a text, with a mark in place of each word that is the one looked for. -/
def marked (word text : List Char) : List Part :=
  mark word (split text).1 ++ (split text).2.flatMap fun e ↦ .keep e.1 :: mark word e.2
where
  mark (word w : List Char) : List Part :=
    if w = word then [.hit] else w.map .keep

/-! The search goes on in three ways: a character behind a mark is dropped, one of a word that was
passed over is kept, and otherwise the text is looked at. -/

private theorem cutFrom_drop_succ {n : Nat} {done : List Part} {c : Char} {cs : List Char} :
    cutFrom word before (.drop (n + 1)) done (c :: cs) = cutFrom word (some c) (.drop n) done cs :=
  rfl

private theorem cutFrom_drop_zero {done : List Part} (text : List Char) :
    cutFrom word before (.drop 0) done text = cutFrom word before (.keep 0) done text := by
  cases text <;> rfl

private theorem cutFrom_look {done : List Part} {c : Char} {cs : List Char} :
    cutFrom word before (.keep 0) done (c :: cs) =
      if word.isPrefixOf (c :: cs) then
        if standsAlone before ((c :: cs).drop word.length) then
          cutFrom word (some c) (.drop (word.length - 1)) (.hit :: done) cs
        else cutFrom word (some c) (.keep (word.length - 1)) (.keep c :: done) cs
      else cutFrom word (some c) (.keep 0) (.keep c :: done) cs :=
  rfl

/-- Parts are only added. -/
theorem cutFrom_eq (pending : Pending) (done : List Part) (text : List Char) :
    cutFrom word before pending done text
      = done.reverse ++ cutFrom word before pending [] text := by
  induction text generalizing before pending done with
  | nil => exact (List.append_nil _).symm
  | cons c cs ih =>
    have hlook : cutFrom word before (.keep 0) done (c :: cs)
        = done.reverse ++ cutFrom word before (.keep 0) [] (c :: cs) := by
      rw [cutFrom_look, cutFrom_look]
      split
      · split
        · rw [ih, ih _ [_]]
          simp
        · rw [ih, ih _ [_]]
          simp
      · rw [ih, ih _ [_]]
        simp
    cases pending with
    | keep n =>
      cases n with
      | zero => exact hlook
      | succ n =>
        show cutFrom word (some c) (.keep n) (.keep c :: done) cs
          = done.reverse ++ cutFrom word (some c) (.keep n) [.keep c] cs
        rw [ih, ih _ [_]]
        simp
    | drop n =>
      cases n with
      | zero => exact hlook
      | succ n => rw [cutFrom_drop_succ, cutFrom_drop_succ, ih]

private theorem cutFrom_keep_succ {n : Nat} {c : Char} {cs : List Char} :
    cutFrom word before (.keep (n + 1)) [] (c :: cs)
      = .keep c :: cutFrom word (some c) (.keep n) [] cs :=
  cutFrom_eq (.keep n) [.keep c] cs

/-- An occurrence that stands alone. -/
private theorem cutFrom_hit {c : Char} {cs : List Char} (hoccurs : word <+: c :: cs)
    (halone : standsAlone before ((c :: cs).drop word.length) = true) :
    cutFrom word before (.keep 0) [] (c :: cs)
      = .hit :: cutFrom word (some c) (.drop (word.length - 1)) [] cs := by
  rw [cutFrom_look, if_pos (List.isPrefixOf_iff_prefix.2 hoccurs), if_pos halone, cutFrom_eq]
  rfl

/-- An occurrence that is part of a longer word is passed over. -/
private theorem cutFrom_pass {c : Char} {cs : List Char} (hoccurs : word <+: c :: cs)
    (halone : standsAlone before ((c :: cs).drop word.length) = false) :
    cutFrom word before (.keep 0) [] (c :: cs)
      = .keep c :: cutFrom word (some c) (.keep (word.length - 1)) [] cs := by
  rw [cutFrom_look, if_pos (List.isPrefixOf_iff_prefix.2 hoccurs), if_neg (by simp [halone]),
    cutFrom_eq]
  rfl

private theorem cutFrom_keep {c : Char} {cs : List Char} (hoccurs : ¬word <+: c :: cs) :
    cutFrom word before (.keep 0) [] (c :: cs)
      = .keep c :: cutFrom word (some c) (.keep 0) [] cs := by
  rw [cutFrom_look, if_neg fun h ↦ hoccurs (List.isPrefixOf_iff_prefix.1 h), cutFrom_eq]
  rfl

/-- A text that does not go on with a word character. -/
def Breaks (rest : List Char) : Prop :=
  rest.head?.any isWordChar = false

variable {rest : List Char}

/-- What occurs before such a text occurs within what stands before it. -/
theorem prefix_of_prefix_append (hword : IsRun word) (hrest : Breaks rest)
    (h : word <+: w ++ rest) : word <+: w := by
  induction w generalizing word with
  | nil =>
    cases word with
    | nil => exact List.prefix_rfl
    | cons d word =>
      obtain ⟨more, rfl⟩ := h
      have hd : isWordChar d = false := hrest
      exact nomatch hd.symm.trans (hword d List.mem_cons_self)
  | cons e w ih =>
    cases word with
    | nil => exact List.nil_prefix
    | cons d word =>
      obtain ⟨rfl, hmore⟩ := List.cons_prefix_cons.1 h
      exact List.cons_prefix_cons.2 ⟨rfl, ih (List.forall_mem_cons.1 hword).2 hmore⟩

variable (hword : IsRun word) (hne : word ≠ []) (hrest : Breaks rest)

include hword hne hrest

/-- Between words nothing is found, whatever stands before. -/
private theorem cutFrom_breaks :
    cutFrom word before (.keep 0) [] rest = cutFrom word none (.keep 0) [] rest := by
  have hoccurs : ¬word <+: rest := fun h ↦
    hne (List.prefix_nil.1 (prefix_of_prefix_append hword hrest (w := []) h))
  cases rest with
  | nil => rfl
  | cons c cs => rw [cutFrom_keep hoccurs, cutFrom_keep hoccurs]

/-- Behind the first character of a longer word all is kept. -/
private theorem cutFrom_inside {b : Char} {n : Nat} (hb : isWordChar b = true) (hw : IsRun w)
    (hn : n ≤ w.length) :
    cutFrom word (some b) (.keep n) [] (w ++ rest)
      = w.map .keep ++ cutFrom word none (.keep 0) [] rest := by
  induction w generalizing b n with
  | nil =>
    obtain rfl := Nat.le_zero.1 hn
    exact cutFrom_breaks hword hne hrest
  | cons d w ih =>
    obtain ⟨hd, hw⟩ := List.forall_mem_cons.1 hw
    cases n with
    | succ n =>
      rw [List.cons_append, cutFrom_keep_succ, ih hd hw (Nat.le_of_succ_le_succ hn)]
      rfl
    | zero =>
      by_cases hoccurs : word <+: d :: (w ++ rest)
      -- it does not stand alone, and ends within the word
      · have hlength := (prefix_of_prefix_append hword hrest (w := d :: w) hoccurs).length_le
        rw [List.length_cons] at hlength
        rw [List.cons_append, cutFrom_pass hoccurs (by simp [standsAlone, hb]),
          ih hd hw (by omega)]
        rfl
      · rw [List.cons_append, cutFrom_keep hoccurs, ih hd hw (Nat.zero_le _)]
        rfl

/-- What is left of an occurrence is dropped. -/
private theorem cutFrom_dropped {b : Char} :
    cutFrom word (some b) (.drop w.length) [] (w ++ rest)
      = cutFrom word none (.keep 0) [] rest := by
  induction w generalizing b with
  | nil =>
    rw [List.nil_append, List.length_nil, cutFrom_drop_zero]
    exact cutFrom_breaks hword hne hrest
  | cons d w ih =>
    rw [List.cons_append, List.length_cons, cutFrom_drop_succ, ih]

/-- A word that is not part of a longer one is marked if it is the one looked for. -/
private theorem cutFrom_run (hbefore : before.any isWordChar = false) (hw : IsRun w) :
    cutFrom word before (.keep 0) [] (w ++ rest)
      = marked.mark word w ++ cutFrom word none (.keep 0) [] rest := by
  cases w with
  | nil =>
    rw [marked.mark, if_neg (Ne.symm hne)]
    exact cutFrom_breaks hword hne hrest
  | cons d w =>
    obtain ⟨hd, hw'⟩ := List.forall_mem_cons.1 hw
    rw [marked.mark]
    split
    next heq =>
      subst heq
      have hafter : (d :: (w ++ rest)).drop (d :: w).length = rest := List.drop_left
      have halone : standsAlone before ((d :: (w ++ rest)).drop (d :: w).length) = true := by
        rw [hafter, standsAlone, hbefore, hrest]
        rfl
      rw [List.cons_append, cutFrom_hit (List.prefix_append _ _) halone]
      exact congrArg _ (cutFrom_dropped hword hne hrest)
    next heq =>
      by_cases hoccurs : word <+: d :: (w ++ rest)
      -- the word goes on behind the occurrence
      · obtain ⟨more, hmore⟩ := prefix_of_prefix_append hword hrest (w := d :: w) hoccurs
        cases more with
        | nil => exact absurd (hmore.symm.trans (List.append_nil _)) heq
        | cons e more =>
          have he : isWordChar e = true := hw e (hmore ▸ List.mem_append_right _ List.mem_cons_self)
          have hafter : (d :: (w ++ rest)).drop word.length = e :: (more ++ rest) := by
            rw [← List.cons_append, ← hmore, List.append_assoc]
            exact List.drop_left
          have halone : standsAlone before ((d :: (w ++ rest)).drop word.length) = false := by
            rw [hafter, standsAlone, List.head?_cons, Option.any_some, he]
            simp
          have hlength := congrArg List.length hmore
          simp only [List.length_append, List.length_cons] at hlength
          rw [List.cons_append, cutFrom_pass hoccurs halone,
            cutFrom_inside hword hne hrest hd hw' (by omega)]
          rfl
      · rw [List.cons_append, cutFrom_keep hoccurs,
          cutFrom_inside hword hne hrest hd hw' (Nat.zero_le _)]
        rfl

end

section

variable {word : List Char}

theorem marked_run (hw : IsRun w) : marked word w = marked.mark word w := by
  rw [marked, split_run hw, List.flatMap_nil, List.append_nil]

theorem marked_append (hw : IsRun w) (hc : isWordChar c = false) (rest : List Char) :
    marked word (w ++ c :: rest) = marked.mark word w ++ .keep c :: marked word rest := by
  rw [marked, split_append hw hc, List.flatMap_cons]
  rfl

/-- The search finds the words that are the one looked for. -/
theorem cut_eq_marked (hword : IsRun word) (hne : word ≠ []) (text : List Char) :
    cut word text = marked word text := by
  have hcut : ∀ before : Option Char, before.any isWordChar = false →
      cutFrom word before (.keep 0) [] text = marked word text := by
    induction text using induction_on with
    | run w hw =>
      intro before hbefore
      have hbreaks : Breaks [] := rfl
      have hrun := cutFrom_run hword hne hbreaks hbefore hw
      rw [List.append_nil] at hrun
      rw [hrun, marked_run hw]
      exact List.append_nil _
    | step w c rest hw hc ih =>
      intro before hbefore
      have hbreaks : Breaks (c :: rest) := hc
      have hoccurs : ¬word <+: c :: rest := fun h ↦
        hne (List.prefix_nil.1 (prefix_of_prefix_append hword hbreaks (w := []) h))
      rw [cutFrom_run hword hne hbreaks hbefore hw, cutFrom_keep hoccurs, ih (some c) hc,
        marked_append hw hc]
  rw [cut, if_neg (by simpa using hne)]
  exact hcut none rfl

theorem mem_marked_iff (hne : word ≠ []) {text : List Char} :
    .hit ∈ marked word text ↔ word ∈ runs text := by
  have hmark : ∀ {w}, IsRun w → (.hit ∈ marked.mark word w ↔ word ∈ runs w) := fun {w} hw ↦ by
    rw [marked.mark, mem_runs_run hw]
    split
    next heq => simp [heq, hne]
    next heq => simp [Ne.symm heq]
  induction text using induction_on with
  | run w hw => rw [marked_run hw, hmark hw]
  | step w c rest hw hc ih =>
    have hkeep : Part.hit ≠ .keep c := nofun
    rw [marked_append hw hc, runs_append hc, List.mem_append, List.mem_append, List.mem_cons,
      or_iff_right hkeep]
    exact or_congr (hmark hw) ih

/-- Marks that read as a replacement. -/
theorem render_marked (hne : word ≠ []) (replacement text : List Char) :
    (marked word text).flatMap (Part.render replacement)
      = mapRuns (fun w ↦ if w = word then replacement else w) text := by
  have hkept : ∀ w : List Char, (w.map Part.keep).flatMap (Part.render replacement) = w := by
    intro w
    rw [List.flatMap_map]
    exact List.flatMap_singleton' w
  have hmark : ∀ w, (marked.mark word w).flatMap (Part.render replacement)
      = put (fun w ↦ if w = word then replacement else w) w := fun w ↦ by
    rw [marked.mark]
    cases w with
    | nil =>
      rw [if_neg (Ne.symm hne)]
      rfl
    | cons d w =>
      show _ = if d :: w = word then replacement else d :: w
      split
      · exact List.append_nil _
      · exact hkept _
  induction text using induction_on with
  | run w hw => rw [marked_run hw, mapRuns_run hw, hmark]
  | step w c rest hw hc ih =>
    rw [marked_append hw hc, mapRuns_append hc, mapRuns_run hw, List.flatMap_append, hmark,
      List.flatMap_cons, ih]
    rfl

end

end Word

/-! ## Words of strings -/

/-- The words of a text, in order. -/
def wordsOf (text : String) : List String :=
  (Word.runs text.toList).map String.ofList

/-- The text with something put in place of each of its words. -/
def mapWords (f : String → String) (text : String) : String :=
  String.ofList (Word.mapRuns (fun w ↦ (f (String.ofList w)).toList) text.toList)

/-- A text that is one word. -/
structure IsName (s : String) : Prop where
  /-- All its characters are those of words. -/
  isWord : IsWord s
  /-- There is at least one. -/
  ne_empty : s ≠ ""

instance (s : String) : Decidable (IsWord s) :=
  decidable_of_iff (s.toList.all isWordChar = true) List.all_eq_true

instance (s : String) : Decidable (IsName s) :=
  decidable_of_iff (IsWord s ∧ s ≠ "") ⟨fun h ↦ ⟨h.1, h.2⟩, fun h ↦ ⟨h.isWord, h.ne_empty⟩⟩

section

variable {f g : String → String} {text name w : String}

theorem mem_wordsOf : w ∈ wordsOf text ↔ w.toList ∈ Word.runs text.toList := by
  rw [wordsOf, List.mem_map]
  constructor
  · rintro ⟨cs, hcs, rfl⟩
    rwa [String.toList_ofList]
  · exact fun h ↦ ⟨w.toList, h, String.ofList_toList⟩

theorem isName_of_mem_wordsOf (h : w ∈ wordsOf text) : IsName w := by
  obtain ⟨hrun, hne⟩ := Word.isRun_of_mem_runs (mem_wordsOf.1 h)
  exact ⟨hrun, fun heq ↦ hne (by rw [heq]; rfl)⟩

theorem IsName.toList_ne_nil (h : IsName w) : w.toList ≠ [] :=
  fun heq ↦ h.ne_empty (String.toList_eq_nil_iff.1 heq)

/-- A name is its only word. -/
theorem IsName.mem_wordsOf_iff (h : IsName name) : w ∈ wordsOf name ↔ w = name := by
  rw [mem_wordsOf, Word.mem_runs_run h.isWord, String.toList_inj]
  exact and_iff_left h.toList_ne_nil

theorem IsName.mapWords (h : IsName name) : mapWords f name = f name := by
  rw [CharacterScript.mapWords, Word.mapRuns_run h.isWord, Word.put,
    if_neg (by simpa using h.toList_ne_nil)]
  simp

theorem mapWords_congr (h : ∀ w ∈ wordsOf text, f w = g w) : mapWords f text = mapWords g text := by
  refine congrArg String.ofList (Word.mapRuns_congr fun w hw ↦ ?_)
  rw [h (String.ofList w) (List.mem_map_of_mem hw)]

theorem mapWords_eq_self (h : ∀ w ∈ wordsOf text, f w = w) : mapWords f text = text := by
  have hid : mapWords id text = text := by
    have heq : (fun w ↦ (id (String.ofList w)).toList) = id :=
      funext fun w ↦ String.toList_ofList
    rw [mapWords, heq, Word.mapRuns_id, String.ofList_toList]
  exact (mapWords_congr h).trans hid

theorem mapWords_mapWords (text : String) :
    mapWords g (mapWords f text) = mapWords (fun w ↦ mapWords g (f w)) text := by
  simp only [mapWords, String.toList_ofList, Word.mapRuns_mapRuns]

theorem mem_wordsOf_mapWords :
    w ∈ wordsOf (mapWords f text) ↔ ∃ u ∈ wordsOf text, w ∈ wordsOf (f u) := by
  rw [mem_wordsOf, mapWords, String.toList_ofList, Word.runs_mapRuns, List.mem_flatMap, wordsOf]
  simp only [List.mem_map, exists_exists_and_eq_and, mem_wordsOf]

/-- A name stands in a text as a word of its own if it is one of its words. -/
theorem containsWord_iff (h : IsName name) :
    containsWord text name = true ↔ name ∈ wordsOf text := by
  rw [containsWord, Word.cut_eq_marked h.isWord h.toList_ne_nil, mem_wordsOf,
    ← Word.mem_marked_iff h.toList_ne_nil, List.any_eq_true]
  simp

/-- Replacing a name where it stands as a word of its own is replacing the words that are the
name. -/
theorem replaceWord_eq_mapWords (h : IsName name) (replacement : String) :
    replaceWord text name replacement
      = mapWords (fun w ↦ if w = name then replacement else w) text := by
  rw [replaceWord, Word.cut_eq_marked h.isWord h.toList_ne_nil, mapWords,
    Word.render_marked h.toList_ne_nil]
  refine congrArg String.ofList (Word.mapRuns_congr fun w _ ↦ ?_)
  by_cases heq : w = name.toList
  · rw [if_pos heq, heq, String.ofList_toList, if_pos rfl]
  · have hne : String.ofList w ≠ name := fun h' ↦ heq (by rw [← h', String.toList_ofList])
    rw [if_neg heq, if_neg hne, String.toList_ofList]

end

end CharacterScript
