import CharacterScript.Proofs.Lexing.Splicing

/-!
# What is read in front of a token

Whether a piece of a text goes on is seen from what comes behind it, but never from anything behind
the next token. So what stands in front of a token is made of the same pieces when something else is
put behind that token (`Pieces.before_token`).

## How far ahead

For most pieces the next character decides. After a digit and a point two characters count, but no
token starts with a point. An `else` looks for an `if` behind any number of blanks, so it may see
all of the next token, and where this ends, but no more.

## What it is for

A text is edited at one place, and what stands in front of the place has to be read as before. If
the new text starts with the same token as the old one, nothing in front can tell the difference.
-/

namespace CharacterScript

variable {last last' last₁ last₂ : Option Token} {t u : Token} {offset : Nat}
variable {front more rest rest' text w x x' : List Char} {ts : List Lexeme} {c : Char}

/-! ## How tokens start -/

theorem Token.Ends.isBlank_eq_false (h : t.Ends last (c :: front) rest)
    (hspells : Spells t (c :: front)) : isBlank c = false := by
  rw [Bool.eq_false_iff]
  intro hblank
  have hread := Piece.read_of_spells hspells h
  rw [Piece.read, if_pos hblank] at hread
  cases hread

theorem Spells.head_ne_point (h : Spells t (c :: front)) : c ≠ '.' := by
  generalize hall : c :: front = all at h
  cases h with
  | @keyword k => cases k <;> cases hall <;> decide
  | elif | defineWord | calcWord | directive | negative | hex | text | reference =>
    cases hall
    decide
  | punct p => cases p <;> cases hall <;> decide
  | number hdecimal =>
    obtain ⟨d, more, hcons, hd⟩ := Piece.IsDecimal.exists_cons hdecimal
    rw [hcons] at hall
    cases hall
    rintro rfl
    cases hd
  | name hname =>
    have hstart := hname.start
    rw [← hall] at hstart
    rintro rfl
    cases hstart

/-! ## Behind the first character -/

/-- Whether a token goes further is seen from the next character, but for a point behind a number
and for what an `else` looks for. -/
theorem Token.Ends.of_head (h : t.Ends last front (c :: x)) (hne : front ≠ [])
    (hpoint : c = '.' → NoneNext Char.isDigit x → NoneNext Char.isDigit x')
    (helse : t = .keyword .else_ → Piece.elifWidth? (c :: x) = none →
      Piece.elifWidth? (c :: x') = none) : t.Ends last front (c :: x') := by
  cases t with
  | keyword k =>
    cases k with
    | else_ => exact ⟨h.1, helse rfl h.2⟩
    | _ => exact h
  | name | reference | defineWord | calcWord | hex | directive => exact h
  | text => trivial
  | eof => exact h
  | number value =>
    obtain ⟨hdigits, hafter, hzero, hsign⟩ := h
    refine ⟨hdigits, fun hfront after heq ↦ ?_, hzero, hsign⟩
    obtain ⟨hc, rfl⟩ := List.cons.inj heq
    exact hpoint hc (hafter hfront x (by rw [hc]))
  | punct p =>
    obtain ⟨hread, hslash, hminus, hampersand⟩ := h
    have htake : (front ++ c :: x').take 2 = (front ++ c :: x).take 2 := by
      rcases front with _ | ⟨d, _ | ⟨e, front⟩⟩
      · exact absurd rfl hne
      · rfl
      · rfl
    rw [Punct.read?_take, ← htake, ← Punct.read?_take] at hread
    exact ⟨hread, hslash, hminus, hampersand⟩

/-! ## Behind the next token

The exception is settled by looking at what an `else` could see of the next token: an `if` that
ends there, or one that does not. -/

/-- Whatever is put behind the next token, no `if` can be made of it for an `else`. -/
theorem Piece.elifWidth?_before_token (h : Piece.elifWidth? (more ++ (w ++ rest)) = none)
    (hspells : Spells t w) (hends : t.Ends last w rest) (hends' : t.Ends last' w rest') :
    Piece.elifWidth? (more ++ (w ++ rest')) = none := by
  rw [Option.eq_none_iff_forall_ne_some]
  intro width hsome
  obtain ⟨blanks, after, hne, hblanks, hsplit, hafter, -⟩ := Piece.elifWidth?_eq_some.1 hsome
  obtain ⟨c, w, rfl⟩ := List.exists_cons_of_ne_nil hspells.ne_nil
  have hblank := hends.isBlank_eq_false hspells
  -- the token starts behind the blanks
  obtain ⟨more, rfl, hif⟩ : ∃ more', more = blanks ++ more' ∧
      more' ++ c :: w ++ rest' = 'i' :: 'f' :: after := by
    obtain ⟨cut, rfl, hcut⟩ | ⟨cut, rfl, hcut⟩ := List.append_eq_append_iff.1 hsplit
    · cases cut with
      | nil => exact ⟨[], by simp, hcut⟩
      | cons d cut =>
        obtain ⟨rfl, -⟩ := List.cons.inj hcut
        obtain rfl | rfl := hblanks c (by simp) <;> cases hblank
    · exact ⟨cut, rfl, by rw [List.append_assoc, hcut]⟩
  -- so it is in the `if`, which is then cut off here in the same way, or behind it
  obtain ⟨front, hfront, hnext⟩ : ∃ front, more ++ c :: w = 'i' :: 'f' :: front ∧
      NoneNext isWordChar (front ++ rest) := by
    have hmem : c ∈ more ++ c :: w := by simp
    rcases hall : more ++ c :: w with _ | ⟨d, _ | ⟨e, front⟩⟩
    · simp at hall
    · rw [hall] at hif hmem
      obtain ⟨rfl, hrest'⟩ := List.cons.inj hif
      obtain rfl := List.mem_singleton.1 hmem
      have hnext := hends'.noneNext hspells (by decide)
      rw [show rest' = 'f' :: after from hrest'] at hnext
      exact absurd (noneNext_cons.1 hnext) (by decide)
    · rw [hall] at hif hmem
      obtain ⟨rfl, hif'⟩ := List.cons.inj hif
      obtain ⟨rfl, rfl⟩ := List.cons.inj hif'
      refine ⟨front, rfl, ?_⟩
      cases front with
      | nil =>
        obtain rfl | rfl : c = 'i' ∨ c = 'f' := by simpa using hmem
        all_goals exact hends.noneNext hspells (by decide)
      | cons => exact hafter
  have hfound : Piece.elifWidth? (blanks ++ more ++ (c :: w ++ rest)) = some (blanks.length + 2) :=
    Piece.elifWidth?_eq_some.2 ⟨blanks, front ++ rest, hne, hblanks,
      by rw [List.append_assoc, ← List.append_assoc more, hfront]; rfl, hnext, rfl⟩
  rw [h] at hfound
  cases hfound

theorem Token.Ends.before_token (h : u.Ends last front (more ++ (w ++ rest))) (hne : front ≠ [])
    (hspells : Spells t w) (hends : t.Ends last₁ w rest) (hends' : t.Ends last₂ w rest') :
    u.Ends last front (more ++ (w ++ rest')) := by
  obtain ⟨d, w', rfl⟩ := List.exists_cons_of_ne_nil hspells.ne_nil
  have helse : Piece.elifWidth? (more ++ (d :: w' ++ rest)) = none →
      Piece.elifWidth? (more ++ (d :: w' ++ rest')) = none :=
    fun hnone ↦ Piece.elifWidth?_before_token hnone hspells hends hends'
  cases more with
  | nil => exact h.of_head hne (fun hpoint ↦ absurd hpoint hspells.head_ne_point) fun _ ↦ helse
  | cons c more =>
    refine h.of_head hne (fun _ hnext ↦ ?_) fun _ ↦ helse
    cases more <;> exact hnext

/-- What stands in front of a token does not depend on what is behind the token. -/
theorem Pieces.before_token (h : Pieces (w ++ rest) last offset text ts last')
    (hspells : Spells t w) (hends : t.Ends last₁ w rest) (hends' : t.Ends last₂ w rest') :
    Pieces (w ++ rest') last offset text ts last' := by
  induction h with
  | done => exact .done
  | @gap _ _ _ front more _ hgap _ ih =>
    refine .gap ?_ ih
    cases hgap with
    | blank hblank => exact .blank hblank
    | block hbody => exact .block hbody
    | line hbody hline =>
      refine .line hbody ?_
      obtain ⟨d, w, rfl⟩ := List.exists_cons_of_ne_nil hspells.ne_nil
      cases more <;> exact hline
  | token hspells₁ hends₁ _ ih =>
    exact .token hspells₁ (hends₁.before_token hspells₁.ne_nil hspells hends hends') ih

end CharacterScript
