import CharacterScript.Proofs.Compound.Bodies
import CharacterScript.Proofs.Relocation.Moves

/-!
# One statement in the place of another

`StmtPhrase.Swap E s s' front back t t'` says that the statement `s` stands somewhere in `t`, behind
the parts `front` and in front of the parts `back`, and that `t'` is `t` with `s'` in its place and
all else edited. There is one case for each way down to a statement.

## What is kept

What holds of `s` and `s'` holds of `t` and `t'` then: they are whole together
(`StmtPhrase.Swap.whole`), and they stand for the same, compound assignments spelled out
(`StmtPhrase.Swap.moves`). Every statement in the tree of a body can be swapped
(`BlockPhrase.exists_swap`).

## Parts on both sides

A phrase with one statement taken out of it is two lists of parts, what stands in front and what
stands behind. Swapping is stated for phrases and these lists together, so a text can be put
together from the parts and is known to be the text of the new phrase. The edit that is carried
along says where the lexemes of the parts go.
-/

namespace CharacterScript

/-! ## All statements of a tree -/

mutual

/-- The statement, and all statements in its bodies. -/
def Stmt.all : Stmt → List Stmt
  | .loop body span => .loop body span :: body.all
  | .if_ cond body rest span => .if_ cond body rest span :: (body.all ++ rest.all)
  | s => [s]

def Block.all : Block → List Stmt
  | .mk stmts _ => allStmts stmts

def Branches.all : Branches → List Stmt
  | .done => []
  | .else_ body => body.all
  | .elif _ body rest => body.all ++ rest.all

def allStmts : List Stmt → List Stmt
  | [] => []
  | s :: rest => s.all ++ allStmts rest

end

/-! ## Swapping

The four relations follow the four sorts of phrases that a statement can be inside of. -/

section

variable (E : Edit) (s s' : StmtPhrase)

mutual

inductive StmtPhrase.Swap : List Part → List Part → StmtPhrase → StmtPhrase → Prop
  | here : StmtPhrase.Swap [] [] s s'
  | loop {front back : List Part} {word : Span} {body body' : BlockPhrase}
    (h : BlockPhrase.Swap front back body body') :
    StmtPhrase.Swap (.lexeme (Keyword.loop.at word) :: front) back (.loop word body)
      (.loop (E.move word) body')
  | ifBody {front back : List Part} {word : Span} {cond : Phrase} {body body' : BlockPhrase}
    {rest : BranchesPhrase} (h : BlockPhrase.Swap front back body body') :
    StmtPhrase.Swap (.lexeme (Keyword.if_.at word) :: (cond.parts ++ front)) (back ++ rest.parts)
      (.if_ word cond body rest) (.if_ (E.move word) (cond.edit E) body' (rest.edit E))
  | ifRest {front back : List Part} {word : Span} {cond : Phrase} {body : BlockPhrase}
    {rest rest' : BranchesPhrase} (h : BranchesPhrase.Swap front back rest rest') :
    StmtPhrase.Swap (.lexeme (Keyword.if_.at word) :: (cond.parts ++ (body.parts ++ front))) back
      (.if_ word cond body rest) (.if_ (E.move word) (cond.edit E) (body.edit E) rest')

inductive BlockPhrase.Swap : List Part → List Part → BlockPhrase → BlockPhrase → Prop
  | mk {front back : List Part} {opening closing : Span} {stmts stmts' : StmtsPhrase}
    (h : StmtsPhrase.Swap front back stmts stmts') :
    BlockPhrase.Swap (.lexeme (Punct.openBrace.at opening) :: front)
      (back ++ [.lexeme (Punct.closeBrace.at closing)]) (.mk opening stmts closing)
      (.mk (E.move opening) stmts' (E.move closing))

inductive StmtsPhrase.Swap : List Part → List Part → StmtsPhrase → StmtsPhrase → Prop
  | head {front back : List Part} {t t' : StmtPhrase} {rest : StmtsPhrase}
    (h : StmtPhrase.Swap front back t t') :
    StmtsPhrase.Swap front (back ++ rest.parts) (.cons t rest) (.cons t' (rest.edit E))
  | tail {front back : List Part} {t : StmtPhrase} {rest rest' : StmtsPhrase}
    (h : StmtsPhrase.Swap front back rest rest') :
    StmtsPhrase.Swap (t.parts ++ front) back (.cons t rest) (.cons (t.edit E) rest')

inductive BranchesPhrase.Swap : List Part → List Part → BranchesPhrase → BranchesPhrase → Prop
  | else_ {front back : List Part} {word : Span} {body body' : BlockPhrase}
    (h : BlockPhrase.Swap front back body body') :
    BranchesPhrase.Swap (.lexeme (Keyword.else_.at word) :: front) back (.else_ word body)
      (.else_ (E.move word) body')
  | elifBody {front back : List Part} {word : Span} {cond : Phrase} {body body' : BlockPhrase}
    {rest : BranchesPhrase} (h : BlockPhrase.Swap front back body body') :
    BranchesPhrase.Swap (.lexeme (Keyword.elif.at word) :: (cond.parts ++ front))
      (back ++ rest.parts) (.elif word cond body rest)
      (.elif (E.move word) (cond.edit E) body' (rest.edit E))
  | elifRest {front back : List Part} {word : Span} {cond : Phrase} {body : BlockPhrase}
    {rest rest' : BranchesPhrase} (h : BranchesPhrase.Swap front back rest rest') :
    BranchesPhrase.Swap (.lexeme (Keyword.elif.at word) :: (cond.parts ++ (body.parts ++ front)))
      back (.elif word cond body rest) (.elif (E.move word) (cond.edit E) (body.edit E) rest')

end

end

variable {E : Edit} {s s' : StmtPhrase}

/-! ### What is written -/

mutual

theorem StmtPhrase.Swap.parts_eq : ∀ {front back : List Part} {t t' : StmtPhrase},
    StmtPhrase.Swap E s s' front back t t' → t.parts = front ++ (s.parts ++ back)
  | _, _, _, _, .here => by simp
  | _, _, _, _, .loop h | _, _, _, _, .ifBody h => by simp [StmtPhrase.parts, h.parts_eq]
  | _, _, _, _, .ifRest h => by simp [StmtPhrase.parts, h.parts_eq]

theorem BlockPhrase.Swap.parts_eq : ∀ {front back : List Part} {b b' : BlockPhrase},
    BlockPhrase.Swap E s s' front back b b' → b.parts = front ++ (s.parts ++ back)
  | _, _, _, _, .mk h => by simp [BlockPhrase.parts, h.parts_eq]

theorem StmtsPhrase.Swap.parts_eq : ∀ {front back : List Part} {ss ss' : StmtsPhrase},
    StmtsPhrase.Swap E s s' front back ss ss' → ss.parts = front ++ (s.parts ++ back)
  | _, _, _, _, .head h => by simp [StmtsPhrase.parts, h.parts_eq]
  | _, _, _, _, .tail h => by simp [StmtsPhrase.parts, h.parts_eq]

theorem BranchesPhrase.Swap.parts_eq : ∀ {front back : List Part} {b b' : BranchesPhrase},
    BranchesPhrase.Swap E s s' front back b b' → b.parts = front ++ (s.parts ++ back)
  | _, _, _, _, .else_ h | _, _, _, _, .elifBody h => by simp [BranchesPhrase.parts, h.parts_eq]
  | _, _, _, _, .elifRest h => by simp [BranchesPhrase.parts, h.parts_eq]

end

mutual

theorem StmtPhrase.Swap.lexemes_eq : ∀ {front back : List Part} {t t' : StmtPhrase},
    StmtPhrase.Swap E s s' front back t t' →
    t'.lexemes = front.flatMap E.part ++ (s'.lexemes ++ back.flatMap E.part)
  | _, _, _, _, .here => by simp
  | _, _, _, _, .loop h => by simp [StmtPhrase.lexemes, Edit.part, h.lexemes_eq]
  | _, _, _, _, .ifBody h => by
    simp [StmtPhrase.lexemes, Edit.part, h.lexemes_eq, Phrase.lexemes_edit,
      BranchesPhrase.lexemes_edit]
  | _, _, _, _, .ifRest h => by
    simp [StmtPhrase.lexemes, Edit.part, h.lexemes_eq, Phrase.lexemes_edit,
      BlockPhrase.lexemes_edit]

theorem BlockPhrase.Swap.lexemes_eq : ∀ {front back : List Part} {b b' : BlockPhrase},
    BlockPhrase.Swap E s s' front back b b' →
    b'.lexemes = front.flatMap E.part ++ (s'.lexemes ++ back.flatMap E.part)
  | _, _, _, _, .mk h => by simp [BlockPhrase.lexemes, Edit.part, h.lexemes_eq]

theorem StmtsPhrase.Swap.lexemes_eq : ∀ {front back : List Part} {ss ss' : StmtsPhrase},
    StmtsPhrase.Swap E s s' front back ss ss' →
    ss'.lexemes = front.flatMap E.part ++ (s'.lexemes ++ back.flatMap E.part)
  | _, _, _, _, .head h => by
    simp [StmtsPhrase.lexemes, h.lexemes_eq, StmtsPhrase.lexemes_edit]
  | _, _, _, _, .tail h => by
    simp [StmtsPhrase.lexemes, h.lexemes_eq, StmtPhrase.lexemes_edit]

theorem BranchesPhrase.Swap.lexemes_eq : ∀ {front back : List Part} {b b' : BranchesPhrase},
    BranchesPhrase.Swap E s s' front back b b' →
    b'.lexemes = front.flatMap E.part ++ (s'.lexemes ++ back.flatMap E.part)
  | _, _, _, _, .else_ h => by simp [BranchesPhrase.lexemes, Edit.part, h.lexemes_eq]
  | _, _, _, _, .elifBody h => by
    simp [BranchesPhrase.lexemes, Edit.part, h.lexemes_eq, Phrase.lexemes_edit,
      BranchesPhrase.lexemes_edit]
  | _, _, _, _, .elifRest h => by
    simp [BranchesPhrase.lexemes, Edit.part, h.lexemes_eq, Phrase.lexemes_edit,
      BlockPhrase.lexemes_edit]

end

/-! ### It is still whole -/

section

variable {rest rest' : List Lexeme}

theorem BlockPhrase.Swap.sameNext {front back : List Part} {b b' : BlockPhrase}
    (h : BlockPhrase.Swap E s s' front back b b') :
    SameNext (b.lexemes ++ rest) (b'.lexemes ++ rest') := by
  cases h
  rfl

theorem StmtPhrase.Swap.sameNext {front back : List Part} {t t' : StmtPhrase}
    (hs : ∀ rest rest', SameNext (s.lexemes ++ rest) (s'.lexemes ++ rest'))
    (h : StmtPhrase.Swap E s s' front back t t') :
    SameNext (t.lexemes ++ rest) (t'.lexemes ++ rest') := by
  cases h with
  | here => exact hs _ _
  | loop | ifBody | ifRest => rfl

theorem StmtsPhrase.Swap.sameNext {front back : List Part} {ss ss' : StmtsPhrase}
    (hs : ∀ rest rest', SameNext (s.lexemes ++ rest) (s'.lexemes ++ rest'))
    (h : StmtsPhrase.Swap E s s' front back ss ss') :
    SameNext (ss.lexemes ++ rest) (ss'.lexemes ++ rest') := by
  cases h with
  | head h =>
    rw [StmtsPhrase.lexemes, StmtsPhrase.lexemes, List.append_assoc, List.append_assoc]
    exact h.sameNext hs
  | @tail _ _ t =>
    rw [StmtsPhrase.lexemes, StmtsPhrase.lexemes, List.append_assoc, List.append_assoc]
    exact t.sameNext_edit

end

/-- A statement that can take the place of another one, wherever that stands: it starts with the
same token and is whole where the other one is. -/
structure StmtPhrase.Replaces (s s' : StmtPhrase) : Prop where
  /-- They start with the same token, so what stands in front is read alike. -/
  sameNext : ∀ rest rest', SameNext (s.lexemes ++ rest) (s'.lexemes ++ rest')
  /-- It is whole in front of whatever starts with the same token, if nothing there can go on with
  it. -/
  whole : ∀ {rest rest'}, s.Whole rest → SameNext rest rest' → Boundary rest' → s'.Whole rest'

mutual

theorem StmtPhrase.Swap.whole (hE : E.Fits) (hs : s.Replaces s') : ∀ {front back : List Part}
    {t t' : StmtPhrase} {rest rest' : List Lexeme}, StmtPhrase.Swap E s s' front back t t' →
    t.Whole rest → SameNext rest rest' → Boundary rest' → t'.Whole rest'
  | _, _, _, _, _, _, .here, ht, hnext, hboundary => hs.whole ht hnext hboundary
  | _, _, _, _, _, _, .loop h, ht, _, _ => h.whole hE hs ht
  | _, _, _, _, _, _, .ifBody h, ht, hnext, hboundary =>
    ⟨ht.1.edit hE h.sameNext, h.whole hE hs ht.2.1,
      BranchesPhrase.Whole.edit hE ht.2.2 hnext hboundary⟩
  | _, _, _, _, _, _, .ifRest h, ht, hnext, hboundary =>
    ⟨ht.1.edit hE (BlockPhrase.sameNext_edit _), BlockPhrase.Whole.edit hE ht.2.1,
      h.whole hE hs ht.2.2 hnext hboundary⟩

theorem BlockPhrase.Swap.whole (hE : E.Fits) (hs : s.Replaces s') : ∀ {front back : List Part}
    {b b' : BlockPhrase} {rest rest' : List Lexeme}, BlockPhrase.Swap E s s' front back b b' →
    b.Whole rest → b'.Whole rest'
  | _, _, _, _, _, _, .mk h, hb => h.whole hE hs hb

theorem StmtsPhrase.Swap.whole (hE : E.Fits) (hs : s.Replaces s') : ∀ {front back : List Part}
    {ss ss' : StmtsPhrase} {closing closing' : Span} {rest rest' : List Lexeme},
    StmtsPhrase.Swap E s s' front back ss ss' → ss.Whole (Punct.closeBrace.at closing :: rest) →
    ss'.Whole (Punct.closeBrace.at closing' :: rest')
  | _, _, _, _, _, _, _, _, .head h, hss =>
    ⟨h.whole hE hs hss.1 (StmtsPhrase.sameNext_edit _ sameNext_cons) (StmtsPhrase.boundary _ _ _),
      StmtsPhrase.Whole.edit hE hss.2⟩
  | _, _, _, _, _, _, _, _, .tail h, hss =>
    ⟨StmtPhrase.Whole.edit hE hss.1 (h.sameNext hs.sameNext) (StmtsPhrase.boundary _ _ _),
      h.whole hE hs hss.2⟩

theorem BranchesPhrase.Swap.whole (hE : E.Fits) (hs : s.Replaces s') : ∀ {front back : List Part}
    {b b' : BranchesPhrase} {rest rest' : List Lexeme}, BranchesPhrase.Swap E s s' front back b b' →
    b.Whole rest → SameNext rest rest' → Boundary rest' → b'.Whole rest'
  | _, _, _, _, _, _, .else_ h, hb, _, _ => h.whole hE hs hb
  | _, _, _, _, _, _, .elifBody h, hb, hnext, hboundary =>
    ⟨hb.1.edit hE h.sameNext, h.whole hE hs hb.2.1,
      BranchesPhrase.Whole.edit hE hb.2.2 hnext hboundary⟩
  | _, _, _, _, _, _, .elifRest h, hb, hnext, hboundary =>
    ⟨hb.1.edit hE (BlockPhrase.sameNext_edit _), BlockPhrase.Whole.edit hE hb.2.1,
      h.whole hE hs hb.2.2 hnext hboundary⟩

end

/-! ### It stands for the same -/

section

variable {m : Motion} {source source' : String}

mutual

/-- Trees that are the same but for what may differ still are when both are spelled out. -/
theorem Stmt.Moves.spelled (hm : m.Free) :
    ∀ {t t' : Stmt}, t.Moves m t' → t.spelled.Moves m t'.spelled
  | .assign _ _ none _ _, _, .assign h => .assign h
  | .assign _ _ (some _) _ _, _, .assign h => .assign (.binary (.name (hm.name _ _ _ _)) h)
  | _, _, .loop h => .loop (h.spelled hm)
  | _, _, .if_ hcond hbody hrest => .if_ hcond (hbody.spelled hm) (hrest.spelled hm)
  | _, _, .break_ => .break_
  | _, _, .call h => .call h
  | _, _, .let_ hplace h => .let_ hplace h
  | _, _, .return_ => .return_
  | _, _, .returnValue h => .returnValue h
  | _, _, .lone => .lone

theorem StmtsMove.spelled (hm : m.Free) :
    ∀ {ss ss' : List Stmt}, StmtsMove m ss ss' → StmtsMove m (spelledStmts ss) (spelledStmts ss')
  | _, _, .nil => .nil
  | _, _, .cons h hmore => .cons (h.spelled hm) (hmore.spelled hm)

theorem Block.Moves.spelled (hm : m.Free) :
    ∀ {b b' : Block}, b.Moves m b' → b.spelled.Moves m b'.spelled
  | _, _, .mk h => .mk (h.spelled hm)

theorem Branches.Moves.spelled (hm : m.Free) :
    ∀ {b b' : Branches}, b.Moves m b' → b.spelled.Moves m b'.spelled
  | _, _, .done => .done
  | _, _, .else_ h => .else_ (h.spelled hm)
  | _, _, .elif hcond hbody hrest => .elif hcond (hbody.spelled hm) (hrest.spelled hm)

end

mutual

theorem StmtPhrase.Swap.moves (hm : m.Free)
    (hs : (s.tree source).spelled.Moves m (s'.tree source').spelled) : ∀ {front back : List Part}
    {t t' : StmtPhrase}, StmtPhrase.Swap E s s' front back t t' →
    (∀ part ∈ front ++ back, E.Carries m source source' part) →
    (t.tree source).spelled.Moves m (t'.tree source').spelled
  | _, _, _, _, .here, _ => hs
  | _, _, _, _, .loop h, hparts => .loop (h.moves hm hs fun part hpart ↦
    hparts part (List.mem_cons_of_mem _ hpart))
  | _, _, _, _, .ifBody h, hparts => .if_
    (Phrase.moves_tree hm.place fun part hpart ↦ hparts part (by simp [hpart]))
    (h.moves hm hs fun part hpart ↦ hparts part (by grind))
    ((BranchesPhrase.moves_edit hm.place fun part hpart ↦ hparts part (by simp [hpart])).spelled hm)
  | _, _, _, _, .ifRest h, hparts => .if_
    (Phrase.moves_tree hm.place fun part hpart ↦ hparts part (by simp [hpart]))
    ((BlockPhrase.moves_edit hm.place fun part hpart ↦ hparts part (by simp [hpart])).spelled hm)
    (h.moves hm hs fun part hpart ↦ hparts part (by grind))

theorem BlockPhrase.Swap.moves (hm : m.Free)
    (hs : (s.tree source).spelled.Moves m (s'.tree source').spelled) : ∀ {front back : List Part}
    {b b' : BlockPhrase}, BlockPhrase.Swap E s s' front back b b' →
    (∀ part ∈ front ++ back, E.Carries m source source' part) →
    (b.tree source).spelled.Moves m (b'.tree source').spelled
  | _, _, _, _, .mk h, hparts => .mk (h.moves hm hs fun part hpart ↦ hparts part (by grind))

theorem StmtsPhrase.Swap.moves (hm : m.Free)
    (hs : (s.tree source).spelled.Moves m (s'.tree source').spelled) : ∀ {front back : List Part}
    {ss ss' : StmtsPhrase}, StmtsPhrase.Swap E s s' front back ss ss' →
    (∀ part ∈ front ++ back, E.Carries m source source' part) →
    StmtsMove m (spelledStmts (ss.trees source)) (spelledStmts (ss'.trees source'))
  | _, _, _, _, .head h, hparts => .cons
    (h.moves hm hs fun part hpart ↦ hparts part (by grind))
    ((StmtsPhrase.moves_edit hm.place fun part hpart ↦ hparts part (by simp [hpart])).spelled hm)
  | _, _, _, _, .tail h, hparts => .cons
    ((StmtPhrase.moves_edit hm.place fun part hpart ↦ hparts part (by simp [hpart])).spelled hm)
    (h.moves hm hs fun part hpart ↦ hparts part (by grind))

theorem BranchesPhrase.Swap.moves (hm : m.Free)
    (hs : (s.tree source).spelled.Moves m (s'.tree source').spelled) : ∀ {front back : List Part}
    {b b' : BranchesPhrase}, BranchesPhrase.Swap E s s' front back b b' →
    (∀ part ∈ front ++ back, E.Carries m source source' part) →
    (b.tree source).spelled.Moves m (b'.tree source').spelled
  | _, _, _, _, .else_ h, hparts => .else_ (h.moves hm hs fun part hpart ↦
    hparts part (List.mem_cons_of_mem _ hpart))
  | _, _, _, _, .elifBody h, hparts => .elif
    (Phrase.moves_tree hm.place fun part hpart ↦ hparts part (by simp [hpart]))
    (h.moves hm hs fun part hpart ↦ hparts part (by grind))
    ((BranchesPhrase.moves_edit hm.place fun part hpart ↦ hparts part (by simp [hpart])).spelled hm)
  | _, _, _, _, .elifRest h, hparts => .elif
    (Phrase.moves_tree hm.place fun part hpart ↦ hparts part (by simp [hpart]))
    ((BlockPhrase.moves_edit hm.place fun part hpart ↦ hparts part (by simp [hpart])).spelled hm)
    (h.moves hm hs fun part hpart ↦ hparts part (by grind))

end

end

/-! ## Every statement can be swapped -/

section

variable {source : String} {target : Stmt}

mutual

theorem StmtPhrase.exists_swap : ∀ {t : StmtPhrase}, target ∈ (t.tree source).all →
    ∃ s front back, s.tree source = target ∧ ∀ E s', ∃ t', StmtPhrase.Swap E s s' front back t t'
  | .break_ _, h | .call _, h | .let_ _ _ _ _ _, h | .assign _ _ _ _ _, h | .return_ _, h
  | .returnValue _ _, h | .lone _ _, h =>
    ⟨_, [], [], (List.mem_singleton.1 h).symm, fun _ s' ↦ ⟨s', .here⟩⟩
  | .loop word body, h => by
    obtain rfl | h := List.mem_cons.1 h
    · exact ⟨_, [], [], rfl, fun _ s' ↦ ⟨s', .here⟩⟩
    · obtain ⟨s, front, back, hs, hswap⟩ := BlockPhrase.exists_swap h
      exact ⟨s, _, _, hs, fun E s' ↦ (hswap E s').elim fun _ hswap ↦ ⟨_, .loop hswap⟩⟩
  | .if_ word cond body rest, h => by
    obtain rfl | h := List.mem_cons.1 h
    · exact ⟨_, [], [], rfl, fun _ s' ↦ ⟨s', .here⟩⟩
    obtain h | h := List.mem_append.1 h
    · obtain ⟨s, front, back, hs, hswap⟩ := BlockPhrase.exists_swap h
      exact ⟨s, _, _, hs, fun E s' ↦ (hswap E s').elim fun _ hswap ↦ ⟨_, .ifBody hswap⟩⟩
    · obtain ⟨s, front, back, hs, hswap⟩ := BranchesPhrase.exists_swap h
      exact ⟨s, _, _, hs, fun E s' ↦ (hswap E s').elim fun _ hswap ↦ ⟨_, .ifRest hswap⟩⟩

theorem BlockPhrase.exists_swap : ∀ {b : BlockPhrase}, target ∈ (b.tree source).all →
    ∃ s front back, s.tree source = target ∧ ∀ E s', ∃ b', BlockPhrase.Swap E s s' front back b b'
  | .mk opening stmts closing, h => by
    obtain ⟨s, front, back, hs, hswap⟩ := StmtsPhrase.exists_swap (show target ∈ allStmts _ from h)
    exact ⟨s, _, _, hs, fun E s' ↦ (hswap E s').elim fun _ hswap ↦ ⟨_, .mk hswap⟩⟩

theorem StmtsPhrase.exists_swap : ∀ {ss : StmtsPhrase}, target ∈ allStmts (ss.trees source) →
    ∃ s front back, s.tree source = target ∧ ∀ E s', ∃ ss',
      StmtsPhrase.Swap E s s' front back ss ss'
  | .nil, h => (List.not_mem_nil h).elim
  | .cons t rest, h => by
    obtain h | h := List.mem_append.1 h
    · obtain ⟨s, front, back, hs, hswap⟩ := StmtPhrase.exists_swap h
      exact ⟨s, _, _, hs, fun E s' ↦ (hswap E s').elim fun _ hswap ↦ ⟨_, .head hswap⟩⟩
    · obtain ⟨s, front, back, hs, hswap⟩ := StmtsPhrase.exists_swap h
      exact ⟨s, _, _, hs, fun E s' ↦ (hswap E s').elim fun _ hswap ↦ ⟨_, .tail hswap⟩⟩

theorem BranchesPhrase.exists_swap : ∀ {b : BranchesPhrase}, target ∈ (b.tree source).all →
    ∃ s front back, s.tree source = target ∧ ∀ E s', ∃ b',
      BranchesPhrase.Swap E s s' front back b b'
  | .done, h => (List.not_mem_nil h).elim
  | .else_ word body, h => by
    obtain ⟨s, front, back, hs, hswap⟩ := BlockPhrase.exists_swap (show target ∈ Block.all _ from h)
    exact ⟨s, _, _, hs, fun E s' ↦ (hswap E s').elim fun _ hswap ↦ ⟨_, .else_ hswap⟩⟩
  | .elif word cond body rest, h => by
    obtain h | h := List.mem_append.1 h
    · obtain ⟨s, front, back, hs, hswap⟩ := BlockPhrase.exists_swap h
      exact ⟨s, _, _, hs, fun E s' ↦ (hswap E s').elim fun _ hswap ↦ ⟨_, .elifBody hswap⟩⟩
    · obtain ⟨s, front, back, hs, hswap⟩ := BranchesPhrase.exists_swap h
      exact ⟨s, _, _, hs, fun E s' ↦ (hswap E s').elim fun _ hswap ↦ ⟨_, .elifRest hswap⟩⟩

end

end

end CharacterScript
