import CharacterScript.Proofs.Lexing.Reading

/-!
# A text as tokens and gaps

`Lexes last offset text ts` says that `text`, which stands at byte `offset` behind the token `last`,
is made of gaps and of tokens written one behind the other, and that `ts` are these tokens at their
places. Nothing in it speaks of a walk with characters to pass over; that the walk finds exactly
this is `lex_eq_ok_iff`.

## Two recursions

The walk is a recursion over characters that passes over those of a piece one by one. `Lexes` has
one constructor for a gap and one for a token, and takes all of their characters at once. Proofs
about whole texts go by induction on the second; this module is where the two meet.
-/

namespace CharacterScript

variable {last : Option Token} {t : Token} {offset : Nat} {front rest text : List Char}
variable {ts : List Lexeme}

inductive Lexes : Option Token → Nat → List Char → List Lexeme → Prop
  | done {last : Option Token} {offset : Nat} : Lexes last offset [] [⟨.eof, ⟨offset, offset⟩⟩]
  | gap {last : Option Token} {offset : Nat} {front rest : List Char} {ts : List Lexeme}
    (hgap : Gap rest front) (hrest : Lexes last (offset + byteLength front) rest ts) :
    Lexes last offset (front ++ rest) ts
  | token {last : Option Token} {offset : Nat} {t : Token} {front rest : List Char}
    {ts : List Lexeme} (hspells : Spells t front) (hends : t.Ends last front rest)
    (hrest : Lexes (some t) (offset + byteLength front) rest ts) :
    Lexes last offset (front ++ rest) (⟨t, ⟨offset, offset + byteLength front⟩⟩ :: ts)

/-! ## Pieces are not empty -/

theorem Gap.ne_nil (h : Gap rest front) : front ≠ [] := by
  cases h <;> exact List.cons_ne_nil _ _

theorem Spells.ne_nil (h : Spells t front) : front ≠ [] := by
  cases h with
  | @keyword k hk =>
    cases k <;> decide
  | elif | defineWord | calcWord | directive | negative | hex | text | reference =>
    exact List.cons_ne_nil _ _
  | punct p => cases p <;> decide
  | number h =>
    obtain ⟨d, more, hcons, -⟩ := Piece.IsDecimal.exists_cons h
    rw [hcons]
    exact List.cons_ne_nil _ _
  | name h =>
    intro hnil
    have hstart := h.start
    rw [hnil] at hstart
    cases hstart

/-! ## The walk

Passing over the characters of a piece changes the offset and nothing else. -/

theorem byteLength_append (a b : List Char) :
    byteLength (a ++ b) = byteLength a + byteLength b := by
  induction a with
  | nil => rw [List.nil_append, show byteLength [] = 0 from rfl, Nat.zero_add]
  | cons c a ih => rw [List.cons_append, byteLength_cons, byteLength_cons, ih, Nat.add_assoc]

/-- The characters that belong to the piece before are passed over. -/
theorem lexFrom_skip (front rest : List Char) (offset : Nat) (done : List Lexeme) :
    lexFrom offset front.length done (front ++ rest)
      = lexFrom (offset + byteLength front) 0 done rest := by
  induction front generalizing offset with
  | nil => rfl
  | cons c front ih =>
    rw [List.length_cons, List.cons_append, lexFrom, ih, byteLength_cons, Nat.add_assoc]

theorem lexFrom_gap {c : Char} {done : List Lexeme} (hgap : Gap rest (c :: front)) :
    lexFrom offset 0 done (c :: front ++ rest)
      = lexFrom (offset + byteLength (c :: front)) 0 done rest := by
  have hread : Piece.read (done.head?.map (·.token)) c (front ++ rest)
      = .ok (.gap (front.length + 1)) := Piece.read_of_gap hgap
  rw [List.cons_append, lexFrom, hread]
  dsimp only
  rw [Nat.add_sub_cancel, lexFrom_skip, byteLength_cons, Nat.add_assoc]

theorem lexFrom_token {c : Char} {done : List Lexeme} (hspells : Spells t (c :: front))
    (hends : t.Ends (done.head?.map (·.token)) (c :: front) rest) :
    lexFrom offset 0 done (c :: front ++ rest)
      = lexFrom (offset + byteLength (c :: front)) 0
          (⟨t, ⟨offset, offset + byteLength (c :: front)⟩⟩ :: done) rest := by
  have hread : Piece.read (done.head?.map (·.token)) c (front ++ rest)
      = .ok (.token t (front.length + 1)) := Piece.read_of_spells hspells hends
  have htake : (c :: (front ++ rest)).take (front.length + 1) = c :: front := by
    rw [List.take_succ_cons, List.take_left]
  rw [List.cons_append, lexFrom, hread]
  dsimp only
  rw [htake, Nat.add_sub_cancel, lexFrom_skip, byteLength_cons, Nat.add_assoc]

theorem Lexes.lexFrom_eq (h : Lexes last offset text ts) :
    ∀ done : List Lexeme, done.head?.map (·.token) = last →
      lexFrom offset 0 done text = .ok (done.reverse ++ ts) := by
  induction h with
  | done =>
    intro done _
    rw [lexFrom, List.reverse_cons]
  | @gap last offset front rest ts hgap _ ih =>
    intro done hdone
    obtain ⟨c, front, rfl⟩ := List.exists_cons_of_ne_nil hgap.ne_nil
    rw [lexFrom_gap hgap, ih done hdone]
  | @token last offset t front rest ts hspells hends _ ih =>
    intro done hdone
    obtain ⟨c, front, rfl⟩ := List.exists_cons_of_ne_nil hspells.ne_nil
    rw [lexFrom_token hspells (hdone ▸ hends), ih _ rfl, List.reverse_cons, List.append_assoc]
    rfl

theorem lexes_of_lexFrom (text : List Char) : ∀ {offset : Nat} {done ts : List Lexeme},
    lexFrom offset 0 done text = .ok ts →
      ∃ new, ts = done.reverse ++ new ∧ Lexes (done.head?.map (·.token)) offset text new := by
  -- a piece takes up at least one character, so what is left is shorter
  induction hn : text.length using Nat.strong_induction_on generalizing text with
  | _ n ih =>
  intro offset done ts h
  cases text with
  | nil =>
    rw [lexFrom, Except.ok.injEq, List.reverse_cons] at h
    exact ⟨_, h.symm, .done⟩
  | cons c cs =>
    cases hread : Piece.read (done.head?.map (·.token)) c cs with
    | error cause =>
      rw [lexFrom, hread] at h
      cases h
    | ok piece =>
      cases piece with
      | gap width =>
        obtain ⟨front, rest, hsplit, -, hgap⟩ := Piece.gap_of_read hread
        obtain ⟨d, front, rfl⟩ := List.exists_cons_of_ne_nil hgap.ne_nil
        have hlength : rest.length < n := by
          rw [← hn, hsplit, List.length_append, List.length_cons]
          omega
        rw [hsplit, lexFrom_gap hgap] at h
        obtain ⟨new, rfl, hnew⟩ := ih _ hlength rest rfl h
        exact ⟨new, rfl, hsplit ▸ .gap hgap hnew⟩
      | token t width =>
        obtain ⟨front, rest, hsplit, -, hspells, hends⟩ := Piece.found_of_read hread
        obtain ⟨d, front, rfl⟩ := List.exists_cons_of_ne_nil hspells.ne_nil
        have hlength : rest.length < n := by
          rw [← hn, hsplit, List.length_append, List.length_cons]
          omega
        rw [hsplit, lexFrom_token hspells hends] at h
        obtain ⟨new, rfl, hnew⟩ := ih _ hlength rest rfl h
        refine ⟨⟨t, ⟨offset, offset + byteLength (d :: front)⟩⟩ :: new, ?_, ?_⟩
        · rw [List.reverse_cons, List.append_assoc, List.singleton_append]
        · rw [hsplit]
          exact .token hspells hends hnew

/-- Lexing finds the tokens a text is made of. -/
theorem lex_eq_ok_iff {source : String} : lex source = .ok ts ↔ Lexes none 0 source.toList ts := by
  constructor
  · intro h
    obtain ⟨new, rfl, hnew⟩ := lexes_of_lexFrom _ h
    exact hnew
  · intro h
    exact h.lexFrom_eq [] rfl

end CharacterScript
