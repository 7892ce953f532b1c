import CharacterScript.Calc
import CharacterScript.Proofs.Computation
import CharacterScript.Proofs.Relocation.Captured
import CharacterScript.Proofs.Words

/-!
# The words of a calculation

A calculation is made of numbers and marks, so a letter only stands in it behind a digit or another
letter, as in `0xff`. So each word of a text that has a value starts with a digit, and a name that
is left in a text because nothing was put in its place is a problem
(`evaluate_ne_ok_of_identifier`).

## Steadiness

A stretch of characters is steady if each letter in it has a digit or a letter in front. What the
reader takes for a number is steady and starts with a digit, and everything else it takes has no
letters at all. So all that it takes is steady, and if it takes the whole text, the first letter
of a name has nothing in front of it that would allow it.
-/

namespace CharacterScript

open Running Word

namespace Calc

variable {cs rest mid : List Char} {c : Char} {follows : Bool}

/-! ## Letters behind digits -/

/-- Each letter follows a word character, where `follows` says whether one stands in front of the
text. -/
def Steady (follows : Bool) : List Char → Prop
  | [] => True
  | c :: cs => (isWordStart c = true → follows = true) ∧ Steady (isWordChar c) cs

theorem Steady.mono (h : Steady false cs) : Steady follows cs := by
  cases cs with
  | nil => trivial
  | cons c cs => exact ⟨fun hc ↦ absurd (h.1 hc) Bool.false_ne_true, h.2⟩

theorem Steady.append (h : Steady follows cs) (hrest : Steady false rest) :
    Steady follows (cs ++ rest) := by
  induction cs generalizing follows with
  | nil => exact hrest.mono
  | cons c cs ih => exact ⟨h.1, ih h.2⟩

/-- A character that is part of no word splits a text. -/
theorem Steady.split (h : Steady follows (cs ++ c :: rest)) (hc : isWordChar c = false) :
    Steady follows cs ∧ Steady false rest := by
  induction cs generalizing follows with
  | nil => exact ⟨trivial, hc ▸ h.2⟩
  | cons d cs ih =>
    obtain ⟨hcs, hrest⟩ := ih h.2
    exact ⟨⟨h.1, hcs⟩, hrest⟩

theorem steady_of_not_isWordStart (h : ∀ c ∈ cs, isWordStart c = false) : Steady follows cs := by
  induction cs generalizing follows with
  | nil => trivial
  | cons c cs ih =>
    obtain ⟨hc, hcs⟩ := List.forall_mem_cons.1 h
    exact ⟨fun hstart ↦ (nomatch hc.symm.trans hstart), ih hcs⟩

theorem steady_of_isRun (h : IsRun cs) : Steady true cs := by
  induction cs with
  | nil => trivial
  | cons c cs ih =>
    obtain ⟨hc, hcs⟩ := List.forall_mem_cons.1 h
    exact ⟨fun _ ↦ rfl, hc.symm ▸ ih hcs⟩

/-- No word of such a text starts with a letter. -/
theorem Steady.not_isWordStart {w : List Char} (h : Steady false cs) (hw : w ∈ runs cs) :
    w.head?.any isWordStart = false := by
  have hrun : ∀ {u}, IsRun u → Steady false u → w ∈ runs u → w.head?.any isWordStart = false := by
    intro u hu hsteady hmem
    obtain ⟨rfl, hne⟩ := (mem_runs_run hu).1 hmem
    obtain ⟨c, w, rfl⟩ := List.exists_cons_of_ne_nil hne
    rw [List.head?_cons, Option.any_some, Bool.eq_false_iff]
    exact fun hc ↦ nomatch hsteady.1 hc
  induction cs using Word.induction_on with
  | run u hu => exact hrun hu h hw
  | step u c rest hu hc ih =>
    obtain ⟨hfirst, hrest⟩ := h.split hc
    rw [runs_append hc, List.mem_append] at hw
    exact hw.elim (hrun hu hfirst) (ih hrest)

/-! ## What the reader takes

One lemma for each reader, about what it takes off the front and not about the value it finds. -/

/-- From `cs` a part was taken that is made of numbers and marks, and `rest` is left. -/
def Takes (cs rest : List Char) : Prop :=
  ∃ front, cs = front ++ rest ∧ Steady false front

theorem Takes.refl (cs : List Char) : Takes cs cs :=
  ⟨[], rfl, trivial⟩

theorem Takes.trans (h : Takes cs mid) (h' : Takes mid rest) : Takes cs rest := by
  obtain ⟨front, rfl, hfront⟩ := h
  obtain ⟨more, rfl, hmore⟩ := h'
  exact ⟨front ++ more, (List.append_assoc ..).symm, hfront.append hmore⟩

theorem Takes.cons (hc : isWordStart c = false) (h : Takes cs rest) : Takes (c :: cs) rest :=
  .trans ⟨[c], rfl, steady_of_not_isWordStart (by simpa using hc)⟩ h

theorem takes_skipBlanks (cs : List Char) : Takes cs (skipBlanks cs) := by
  refine ⟨cs.takeWhile isBlank, List.takeWhile_append_dropWhile.symm,
    steady_of_not_isWordStart fun c hc ↦ ?_⟩
  have hblank := List.mem_takeWhile_imp hc
  simp only [isBlank, Bool.or_eq_true, beq_iff_eq] at hblank
  obtain (((rfl | rfl) | rfl) | rfl) | rfl := hblank <;> decide

theorem takes_number {v : Float} (h : number cs = .ok (v, rest)) : Takes cs rest := by
  have hprefix : ∀ (p : Char → Bool) (cs : List Char),
      cs = cs.takeWhile p ++ cs.drop (cs.takeWhile p).length := fun p cs ↦
    (List.prefix_iff_eq_append.1 (List.takeWhile_prefix p)).symm
  have hhex : ∀ {x : Char}, isWordChar x = true → ∀ cs : List Char,
      Takes ('0' :: x :: cs) (cs.drop (cs.takeWhile isHexDigit).length) := by
    intro x hx cs
    refine ⟨'0' :: x :: cs.takeWhile isHexDigit, ?_, ?_⟩
    · rw [List.cons_append, List.cons_append, ← hprefix]
    · have hrun : IsRun (x :: cs.takeWhile isHexDigit) := List.forall_mem_cons.2
        ⟨hx, fun c hc ↦ isWordChar_of_isHexDigit (List.mem_takeWhile_imp hc)⟩
      exact ⟨fun hzero ↦ absurd hzero (by decide), steady_of_isRun hrun⟩
  unfold number at h
  split at h
  next =>
    obtain ⟨_, -, heq⟩ := exceptBind_eq_ok.1 h
    cases heq
    exact hhex (by decide) _
  next =>
    obtain ⟨_, -, heq⟩ := exceptBind_eq_ok.1 h
    cases heq
    exact hhex (by decide) _
  next =>
    obtain ⟨_, -, heq⟩ := exceptBind_eq_ok.1 h
    cases heq
    refine ⟨_, hprefix (fun c ↦ c.isDigit || c == '.') cs, steady_of_not_isWordStart fun c hc ↦ ?_⟩
    have hdigit := List.mem_takeWhile_imp hc
    rw [Bool.eq_false_iff]
    intro hstart
    rw [Piece.isDigit_eq_false hstart, Bool.false_or, beq_iff_eq] at hdigit
    subst hdigit
    exact absurd hstart (by decide)

/-- The operators of products and sums are no letters. -/
theorem not_isWordStart_of_operator {f : Float → Float → Float}
    (h : product? c = some f ∨ sum? c = some f) : isWordStart c = false := by
  have hmark : c = '*' ∨ c = '/' ∨ c = '%' ∨ c = '+' ∨ c = '-' := by
    rw [product?, sum?] at h
    by_contra hnone
    simp only [not_or] at hnone
    simp [hnone] at h
  obtain rfl | rfl | rfl | rfl | rfl := hmark <;> decide

mutual

theorem takes_sum : ∀ (fuel : Nat) {cs rest : List Char} {v : Float},
    sum fuel cs = .ok (v, rest) → Takes cs rest
  | 0, _, _, _, h => nomatch h
  | fuel + 1, cs, rest, v, h => by
    rw [sum] at h
    obtain ⟨⟨value, mid⟩, hproduct, hmore⟩ := exceptBind_eq_ok.1 h
    exact (takes_product fuel hproduct).trans (takes_moreSum fuel hmore)

theorem takes_moreSum : ∀ (fuel : Nat) {value : Float} {cs rest : List Char} {v : Float},
    moreSum fuel value cs = .ok (v, rest) → Takes cs rest
  | 0, _, _, _, _, h => nomatch h
  | fuel + 1, value, cs, rest, v, h => by
    refine (takes_skipBlanks cs).trans ?_
    rw [moreSum] at h
    split at h
    next hnil =>
      cases h
      rw [hnil]
      exact .refl _
    next c more hcons =>
      rw [hcons]
      split at h
      next =>
        cases h
        exact .refl _
      next f hf =>
        obtain ⟨⟨right, mid⟩, hproduct, hmore⟩ := exceptBind_eq_ok.1 h
        exact .cons (not_isWordStart_of_operator (.inr hf))
          ((takes_product fuel hproduct).trans (takes_moreSum fuel hmore))

theorem takes_product : ∀ (fuel : Nat) {cs rest : List Char} {v : Float},
    product fuel cs = .ok (v, rest) → Takes cs rest
  | 0, _, _, _, h => nomatch h
  | fuel + 1, cs, rest, v, h => by
    rw [product] at h
    obtain ⟨⟨value, mid⟩, hsigned, hmore⟩ := exceptBind_eq_ok.1 h
    exact (takes_signed fuel hsigned).trans (takes_moreProduct fuel hmore)

theorem takes_moreProduct : ∀ (fuel : Nat) {value : Float} {cs rest : List Char} {v : Float},
    moreProduct fuel value cs = .ok (v, rest) → Takes cs rest
  | 0, _, _, _, _, h => nomatch h
  | fuel + 1, value, cs, rest, v, h => by
    refine (takes_skipBlanks cs).trans ?_
    rw [moreProduct] at h
    split at h
    next hnil =>
      cases h
      rw [hnil]
      exact .refl _
    next c more hcons =>
      rw [hcons]
      split at h
      next =>
        cases h
        exact .refl _
      next f hf =>
        obtain ⟨⟨right, mid⟩, hsigned, hmore⟩ := exceptBind_eq_ok.1 h
        exact .cons (not_isWordStart_of_operator (.inl hf))
          ((takes_signed fuel hsigned).trans (takes_moreProduct fuel hmore))

theorem takes_signed : ∀ (fuel : Nat) {cs rest : List Char} {v : Float},
    signed fuel cs = .ok (v, rest) → Takes cs rest
  | 0, _, _, _, h => nomatch h
  | fuel + 1, cs, rest, v, h => by
    refine (takes_skipBlanks cs).trans ?_
    rw [signed] at h
    split at h
    next => exact nomatch h
    next c more hcons =>
      rw [hcons]
      split at h
      next hc =>
        obtain ⟨⟨value, mid⟩, hsigned, heq⟩ := exceptBind_eq_ok.1 h
        cases heq
        exact .cons (by rw [hc]; decide) (takes_signed fuel hsigned)
      split at h
      next hc => exact .cons (by rw [hc]; decide) (takes_signed fuel h)
      split at h
      next hc =>
        obtain ⟨⟨value, mid⟩, hsum, heq⟩ := exceptBind_eq_ok.1 h
        refine .cons (by rw [hc]; decide) ((takes_sum fuel hsum).trans ?_)
        refine (takes_skipBlanks mid).trans ?_
        dsimp only at heq
        split at heq
        next cs hclose =>
          cases heq
          rw [hclose]
          exact .cons (by decide) (.refl _)
        next => exact nomatch heq
      split at h
      next => exact takes_number h
      next => exact nomatch h

end

end Calc

/-- A text with a value has no names in it. -/
theorem evaluate_ne_ok_of_identifier {text name : String} (hname : IsIdentifier name)
    (h : name ∈ wordsOf text) (v : Float) : evaluate text ≠ .ok v := by
  intro hok
  rw [evaluate] at hok
  obtain ⟨⟨value, rest⟩, hsum, hend⟩ := exceptBind_eq_ok.1 hok
  have htakes := (Calc.takes_sum _ hsum).trans (Calc.takes_skipBlanks rest)
  dsimp only at hend
  split at hend
  next => exact nomatch hend
  next hnil =>
    rw [hnil] at htakes
    obtain ⟨front, hfront, hsteady⟩ := htakes
    rw [List.append_nil] at hfront
    rw [← hfront] at hsteady
    have hstart := hsteady.not_isWordStart (mem_wordsOf.1 h)
    rw [hname.start] at hstart
    cases hstart

end CharacterScript
