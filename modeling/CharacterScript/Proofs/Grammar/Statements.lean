import CharacterScript.Proofs.Grammar.Reading

/-!
# Statements as they are written

What `Phrase` is for expressions, `StmtPhrase`, `BlockPhrase` and `BranchesPhrase` are for
statements: everything that was written, from which both the lexemes and the tree can be computed.

## Where a statement ends

Nothing separates statements, so each one ends where it cannot go on. `StmtPhrase.Whole` says that a
statement ends in front of `rest`: its last expression does, a `return` without a value stands in
front of nothing that starts an expression, a name alone is not continued to a call or an
assignment, and the branches of an `if` are not continued by another one. The reader of statements
accepts the whole phrases and nothing else (`Parser.exists_phrase_of_block`,
`Parser.block_of_whole`).

## The same plan as for expressions

What is read is a phrase, and a phrase is read; both are said of all readers of statements at
once, for one bound on their steps. Expressions inside of statements are settled already, so all
that is new here is the order of keywords, and which lexeme decides.
-/

namespace CharacterScript

open Running

/-! ## Phrases -/

mutual

inductive StmtPhrase where
  | break_ (word : Span)
  | call (c : CallPhrase)
  | let_ (word : Span) (s : String) (nameSpan sign : Span) (value : Phrase)
  /-- The operator in front of the `=`, if there is one, with its place. -/
  | assign (s : String) (nameSpan : Span) (op : Option (BinOp × Span)) (sign : Span)
      (value : Phrase)
  | return_ (word : Span)
  | returnValue (word : Span) (value : Phrase)
  | loop (word : Span) (body : BlockPhrase)
  | if_ (word : Span) (cond : Phrase) (body : BlockPhrase) (rest : BranchesPhrase)
  | lone (s : String) (span : Span)

inductive BlockPhrase where
  | mk (opening : Span) (stmts : StmtsPhrase) (closing : Span)

inductive StmtsPhrase where
  | nil
  | cons (s : StmtPhrase) (rest : StmtsPhrase)

inductive BranchesPhrase where
  | done
  | else_ (word : Span) (body : BlockPhrase)
  | elif (word : Span) (cond : Phrase) (body : BlockPhrase) (rest : BranchesPhrase)

end

/-! ## What is written

The lexemes of a statement are those it consists of and no others. There are no semicolons to be
put in. -/

/-- A keyword at a place. -/
def Keyword.at (k : Keyword) (span : Span) : Lexeme :=
  ⟨.keyword k, span⟩

mutual

def StmtPhrase.lexemes : StmtPhrase → List Lexeme
  | .break_ word => [Keyword.break_.at word]
  | .call c => c.lexemes
  | .let_ word s nameSpan sign value =>
    Keyword.let_.at word :: ⟨.name s, nameSpan⟩ :: Punct.eq.at sign :: value.lexemes
  | .assign s nameSpan op sign value =>
    ⟨.name s, nameSpan⟩ ::
      ((op.map fun o ↦ o.1.punct.at o.2).toList ++ Punct.eq.at sign :: value.lexemes)
  | .return_ word => [Keyword.return_.at word]
  | .returnValue word value => Keyword.return_.at word :: value.lexemes
  | .loop word body => Keyword.loop.at word :: body.lexemes
  | .if_ word cond body rest =>
    Keyword.if_.at word :: (cond.lexemes ++ (body.lexemes ++ rest.lexemes))
  | .lone s span => [⟨.name s, span⟩]

def BlockPhrase.lexemes : BlockPhrase → List Lexeme
  | .mk opening stmts closing =>
    Punct.openBrace.at opening :: (stmts.lexemes ++ [Punct.closeBrace.at closing])

def StmtsPhrase.lexemes : StmtsPhrase → List Lexeme
  | .nil => []
  | .cons s rest => s.lexemes ++ rest.lexemes

def BranchesPhrase.lexemes : BranchesPhrase → List Lexeme
  | .done => []
  | .else_ word body => Keyword.else_.at word :: body.lexemes
  | .elif word cond body rest =>
    Keyword.elif.at word :: (cond.lexemes ++ (body.lexemes ++ rest.lexemes))

end

@[simp] theorem Keyword.token_at (k : Keyword) (span : Span) : (k.at span).token = .keyword k := rfl

mutual

theorem StmtPhrase.inner : ∀ s : StmtPhrase, Inner s.lexemes
  | .break_ _ | .return_ _ | .lone _ _ => by simp [StmtPhrase.lexemes]
  | .call c => by simp [StmtPhrase.lexemes, c.inner]
  | .let_ _ _ _ _ value | .returnValue _ value => by simp [StmtPhrase.lexemes, value.inner]
  | .assign _ _ op _ value => by cases op <;> simp [StmtPhrase.lexemes, value.inner]
  | .loop _ body => by simp [StmtPhrase.lexemes, body.inner]
  | .if_ _ cond body rest => by simp [StmtPhrase.lexemes, cond.inner, body.inner, rest.inner]

theorem BlockPhrase.inner : ∀ b : BlockPhrase, Inner b.lexemes
  | .mk _ stmts _ => by simp [BlockPhrase.lexemes, stmts.inner]

theorem StmtsPhrase.inner : ∀ ss : StmtsPhrase, Inner ss.lexemes
  | .nil => by simp [StmtsPhrase.lexemes]
  | .cons s rest => by simp [StmtsPhrase.lexemes, s.inner, rest.inner]

theorem BranchesPhrase.inner : ∀ b : BranchesPhrase, Inner b.lexemes
  | .done => by simp [BranchesPhrase.lexemes]
  | .else_ _ body => by simp [BranchesPhrase.lexemes, body.inner]
  | .elif _ cond body rest => by simp [BranchesPhrase.lexemes, cond.inner, body.inner, rest.inner]

end

/-! ## What it stands for -/

mutual

def StmtPhrase.tree (source : String) : StmtPhrase → Stmt
  | .break_ word => .break_ word
  | .call c => .call (c.tree source)
  | .let_ word s nameSpan _ value =>
    .let_ s nameSpan (value.tree source) (word.merge (value.tree source).span)
  | .assign s nameSpan op _ value =>
    .assign s nameSpan (op.map (·.1)) (value.tree source) (nameSpan.merge (value.tree source).span)
  | .return_ word => .return_ none word
  | .returnValue word value =>
    .return_ (some (value.tree source)) (word.merge (value.tree source).span)
  | .loop word body => .loop (body.tree source) (word.merge (body.tree source).span)
  | .if_ word cond body rest =>
    .if_ (cond.tree source) (body.tree source) (rest.tree source)
      (word.merge ((rest.tree source).lastSpan (body.tree source).span))
  | .lone s span => .lone s span

def BlockPhrase.tree (source : String) : BlockPhrase → Block
  | .mk opening stmts closing => .mk (stmts.trees source) (opening.merge closing)

def StmtsPhrase.trees (source : String) : StmtsPhrase → List Stmt
  | .nil => []
  | .cons s rest => s.tree source :: rest.trees source

def BranchesPhrase.tree (source : String) : BranchesPhrase → Branches
  | .done => .done
  | .else_ _ body => .else_ (body.tree source)
  | .elif _ cond body rest => .elif (cond.tree source) (body.tree source) (rest.tree source)

end

/-! ## Where it ends

`Whole` goes down the last branch of a phrase, because that is the one that is still open where
the phrase ends. -/

/-- No further branch comes next. -/
def NoBranch : List Lexeme → Prop
  | ⟨.keyword .elif, _⟩ :: _ | ⟨.keyword .else_, _⟩ :: _ => False
  | _ => True

mutual

/-- The statement is all that is read in front of `rest`. -/
def StmtPhrase.Whole : StmtPhrase → List Lexeme → Prop
  | .break_ _, _ => True
  | .call c, rest => c.Leveled ∧ c.Settled rest
  | .let_ _ _ _ _ value, rest | .returnValue _ value, rest => value.Whole 0 rest
  | .assign _ _ op _ value, rest =>
    (∀ o ∈ op, BinOp.ofCompound? o.1.punct = some o.1) ∧ value.Whole 0 rest
  | .return_ _, rest => Parser.startsExpr rest = false
  | .loop _ body, rest => body.Whole rest
  | .if_ _ cond body more, rest =>
    cond.Whole 0 (body.lexemes ++ (more.lexemes ++ rest)) ∧ body.Whole (more.lexemes ++ rest) ∧
      more.Whole rest
  | .lone _ _, rest => NoOpening rest ∧ Parser.assignment? rest = none

def BlockPhrase.Whole : BlockPhrase → List Lexeme → Prop
  | .mk _ stmts closing, rest => stmts.Whole (Punct.closeBrace.at closing :: rest)

def StmtsPhrase.Whole : StmtsPhrase → List Lexeme → Prop
  | .nil, _ => True
  | .cons s more, rest => s.Whole (more.lexemes ++ rest) ∧ more.Whole rest

def BranchesPhrase.Whole : BranchesPhrase → List Lexeme → Prop
  | .done, rest => NoBranch rest
  | .else_ _ body, rest => body.Whole rest
  | .elif _ cond body more, rest =>
    cond.Whole 0 (body.lexemes ++ (more.lexemes ++ rest)) ∧ body.Whole (more.lexemes ++ rest) ∧
      more.Whole rest

end

/-! ## What it starts with -/

/-- Whether a lexeme can start a statement. -/
def startsStmt : List Lexeme → Bool
  | ⟨.keyword .break_, _⟩ :: _ | ⟨.keyword .collapse, _⟩ :: _ | ⟨.keyword .let_, _⟩ :: _
  | ⟨.keyword .return_, _⟩ :: _ | ⟨.keyword .loop, _⟩ :: _ | ⟨.keyword .if_, _⟩ :: _
  | ⟨.name _, _⟩ :: _ => true
  | _ => false

theorem CallPhrase.startsStmt_lexemes (c : CallPhrase) (rest : List Lexeme) :
    startsStmt (c.lexemes ++ rest) = true := by
  cases c with
  | empty head closing | full head args closing =>
    obtain ⟨collapse, name, nameSpan, opening⟩ := head
    cases collapse <;> rfl

theorem StmtPhrase.startsStmt_lexemes (s : StmtPhrase) (rest : List Lexeme) :
    startsStmt (s.lexemes ++ rest) = true := by
  cases s with
  | call c => exact c.startsStmt_lexemes rest
  | break_ | let_ | assign | return_ | returnValue | loop | if_ | lone => rfl

theorem StmtPhrase.length_lexemes_pos (s : StmtPhrase) : 0 < s.lexemes.length := by
  refine List.length_pos_iff.2 fun hnil ↦ ?_
  have hstart := s.startsStmt_lexemes []
  rw [hnil] at hstart
  cases hstart

theorem BlockPhrase.two_le_length (b : BlockPhrase) : 2 ≤ b.lexemes.length := by
  obtain ⟨opening, stmts, closing⟩ := b
  rw [BlockPhrase.lexemes, List.length_cons, List.length_append, List.length_singleton]
  omega

namespace Parser

variable {source : String}

/-! ## What is read is a phrase -/

theorem assignment?_eq_some {ts ts' : List Lexeme} {op : Option BinOp}
    (h : assignment? ts = some (op, ts')) :
    ∃ (place : Option (BinOp × Span)) (sign : Span) (rest : List Lexeme),
      ts' = Punct.eq.at sign :: rest ∧ op = place.map (·.1) ∧
      (∀ o ∈ place, BinOp.ofCompound? o.1.punct = some o.1) ∧
      ts = (place.map fun o ↦ o.1.punct.at o.2).toList ++ ts' := by
  rw [assignment?.eq_def] at h
  split at h
  next sign rest =>
    cases h
    exact ⟨none, sign, rest, rfl, rfl, by simp, rfl⟩
  next p place sign rest _ =>
    obtain ⟨o, ho, heq⟩ := Option.map_eq_some_iff.1 h
    cases heq
    have hpunct : p = o.punct := by
      cases p <;> cases ho <;> rfl
    subst hpunct
    refine ⟨some (o, place), sign, rest, rfl, rfl, ?_, rfl⟩
    rintro _ ⟨⟩
    exact ho
  · cases h

/-- What is proved of all readers of statements at once, for one bound on their steps. The reader of
branches gives up silently when no steps are left, which does not happen behind a condition. -/
private structure ReadsStmts (source : String) (fuel : Nat) : Prop where
  /-- A block. -/
  block : ∀ {ts b rest}, block source fuel ts = .ok (b, rest) →
    ∃ p : BlockPhrase, ts = p.lexemes ++ rest ∧ p.tree source = b ∧ p.Whole rest
  /-- The statements of a block, behind those already read. -/
  stmts : ∀ {done ts ss rest}, stmts source fuel done ts = .ok (ss, rest) →
    ∃ p : StmtsPhrase, ts = p.lexemes ++ rest ∧ done.reverse ++ p.trees source = ss ∧ p.Whole rest
  /-- A statement. -/
  stmt : ∀ {ts s rest}, stmt source fuel ts = .ok (s, rest) →
    ∃ p : StmtPhrase, ts = p.lexemes ++ rest ∧ p.tree source = s ∧ p.Whole rest
  /-- What comes behind a condition. -/
  branches : 0 < fuel → ∀ {ts b rest}, branches source fuel ts = .ok (b, rest) →
    ∃ p : BranchesPhrase, ts = p.lexemes ++ rest ∧ p.tree source = b ∧ p.Whole rest

theorem fuel_pos_of_expr {fuel k : Nat} {ts : List Lexeme} {r : Read Expr}
    (h : expr source fuel k ts = .ok r) : 0 < fuel := by
  cases fuel with
  | zero => exact absurd (by rwa [expr] at h) fail_ne_ok
  | succ fuel => exact Nat.succ_pos fuel

section

variable {fuel : Nat} (ih : ReadsStmts source fuel)
include ih

private theorem block_readsStmts {ts : List Lexeme} {b : Block} {rest : List Lexeme}
    (h : block source (fuel + 1) ts = .ok (b, rest)) :
    ∃ p : BlockPhrase, ts = p.lexemes ++ rest ∧ p.tree source = b ∧ p.Whole rest := by
  rw [block] at h
  obtain ⟨⟨opening, ts₁⟩, hopening, h₁⟩ := exceptBind_eq_ok.1 h
  obtain ⟨⟨ss, ts₂⟩, hstmts, h₂⟩ := exceptBind_eq_ok.1 h₁
  obtain ⟨⟨closing, ts₃⟩, hclosing, h₃⟩ := exceptBind_eq_ok.1 h₂
  cases h₃
  rw [mark_eq_ok] at hopening hclosing
  subst hopening
  obtain ⟨p, rfl, rfl, hp⟩ := ih.stmts hstmts
  subst hclosing
  refine ⟨.mk opening p closing, ?_, rfl, hp⟩
  simp [BlockPhrase.lexemes, Punct.at]

private theorem stmts_readsStmts {done : List Stmt} {ts : List Lexeme} {ss : List Stmt}
    {rest : List Lexeme} (h : stmts source (fuel + 1) done ts = .ok (ss, rest)) :
    ∃ p : StmtsPhrase, ts = p.lexemes ++ rest ∧ done.reverse ++ p.trees source = ss ∧
      p.Whole rest := by
  have hnil : ∀ {ts : List Lexeme}, Except.ok (ε := SyntaxError) (done.reverse, ts) =
      .ok (ss, rest) →
      ∃ p : StmtsPhrase, ts = p.lexemes ++ rest ∧ done.reverse ++ p.trees source = ss ∧
        p.Whole rest := by
    intro ts h
    cases h
    exact ⟨.nil, rfl, List.append_nil _, trivial⟩
  rw [stmts.eq_def] at h
  dsimp only at h
  split at h
  · exact hnil h
  · exact hnil h
  · exact hnil h
  · obtain ⟨⟨s, ts₁⟩, hs, h₁⟩ := exceptBind_eq_ok.1 h
    obtain ⟨p, rfl, rfl, hp⟩ := ih.stmt hs
    obtain ⟨q, rfl, rfl, hq⟩ := ih.stmts h₁
    refine ⟨.cons p q, ?_, ?_, hp, hq⟩
    · rw [StmtsPhrase.lexemes, List.append_assoc]
    · rw [StmtsPhrase.trees, List.reverse_cons, List.append_assoc, List.singleton_append]

/-- A condition, a body and the branches behind it, as they follow `if` and `else if`. -/
private theorem guarded_readsStmts {ts ts₁ ts₂ : List Lexeme} {cond : Expr} {body : Block}
    {more : Branches} {rest : List Lexeme} (hcond : expr source fuel 0 ts = .ok (cond, ts₁))
    (hbody : block source fuel ts₁ = .ok (body, ts₂))
    (hmore : branches source fuel ts₂ = .ok (more, rest)) :
    ∃ (p : Phrase) (b : BlockPhrase) (q : BranchesPhrase),
      ts = p.lexemes ++ (b.lexemes ++ (q.lexemes ++ rest)) ∧
      (p.tree source = cond ∧ b.tree source = body ∧ q.tree source = more) ∧
      p.Whole 0 (b.lexemes ++ (q.lexemes ++ rest)) ∧ b.Whole (q.lexemes ++ rest) ∧
        q.Whole rest := by
  have hfuel := fuel_pos_of_expr hcond
  obtain ⟨p, rfl, hcond', hp⟩ := exists_phrase_of_expr hcond
  obtain ⟨b, rfl, hbody', hb⟩ := ih.block hbody
  obtain ⟨q, rfl, hmore', hq⟩ := ih.branches hfuel hmore
  exact ⟨p, b, q, rfl, ⟨hcond', hbody', hmore'⟩, hp, hb, hq⟩

private theorem branches_readsStmts {ts : List Lexeme} {b : Branches} {rest : List Lexeme}
    (h : branches source (fuel + 1) ts = .ok (b, rest)) :
    ∃ p : BranchesPhrase, ts = p.lexemes ++ rest ∧ p.tree source = b ∧ p.Whole rest := by
  rw [branches.eq_def] at h
  dsimp only at h
  split at h
  next word ts =>
    obtain ⟨⟨cond, ts₁⟩, hcond, h₁⟩ := exceptBind_eq_ok.1 h
    obtain ⟨⟨body, ts₂⟩, hbody, h₂⟩ := exceptBind_eq_ok.1 h₁
    obtain ⟨⟨more, ts₃⟩, hmore, h₃⟩ := exceptBind_eq_ok.1 h₂
    cases h₃
    obtain ⟨p, c, q, rfl, ⟨rfl, rfl, rfl⟩, hwhole⟩ := guarded_readsStmts ih hcond hbody hmore
    refine ⟨.elif word p c q, ?_, rfl, hwhole⟩
    simp [BranchesPhrase.lexemes, Keyword.at]
  next word ts =>
    obtain ⟨⟨body, ts₁⟩, hbody, h₁⟩ := exceptBind_eq_ok.1 h
    cases h₁
    obtain ⟨c, rfl, rfl, hc⟩ := ih.block hbody
    exact ⟨.else_ word c, rfl, rfl, hc⟩
  next helif helse =>
    cases h
    refine ⟨.done, rfl, rfl, ?_⟩
    rw [BranchesPhrase.Whole, NoBranch.eq_def]
    split
    · exact helif _ _ rfl
    · exact helse _ _ rfl
    · trivial

private theorem stmt_readsStmts {ts : List Lexeme} {s : Stmt} {rest : List Lexeme}
    (h : stmt source (fuel + 1) ts = .ok (s, rest)) :
    ∃ p : StmtPhrase, ts = p.lexemes ++ rest ∧ p.tree source = s ∧ p.Whole rest := by
  rw [stmt.eq_def] at h
  dsimp only at h
  split at h
  next word ts =>
    cases h
    exact ⟨.break_ word, rfl, rfl, trivial⟩
  next span ts =>
    obtain ⟨⟨c, ts₁⟩, hcall, h₁⟩ := exceptBind_eq_ok.1 h
    cases h₁
    obtain ⟨p, hp, rfl, hwhole⟩ := exists_phrase_of_call hcall
    exact ⟨.call p, hp, rfl, hwhole⟩
  next word ts =>
    obtain ⟨⟨⟨s, nameSpan⟩, ts₁⟩, hname, h₁⟩ := exceptBind_eq_ok.1 h
    obtain ⟨⟨sign, ts₂⟩, hsign, h₂⟩ := exceptBind_eq_ok.1 h₁
    obtain ⟨⟨value, ts₃⟩, hvalue, h₃⟩ := exceptBind_eq_ok.1 h₂
    cases h₃
    rw [name_eq_ok] at hname
    rw [mark_eq_ok] at hsign
    subst hname hsign
    obtain ⟨p, rfl, rfl, hp⟩ := exists_phrase_of_expr hvalue
    exact ⟨.let_ word s nameSpan sign p, rfl, rfl, hp⟩
  next word ts =>
    split at h
    next hstart =>
      obtain ⟨⟨value, ts₁⟩, hvalue, h₁⟩ := exceptBind_eq_ok.1 h
      cases h₁
      obtain ⟨p, rfl, rfl, hp⟩ := exists_phrase_of_expr hvalue
      exact ⟨.returnValue word p, rfl, rfl, hp⟩
    next hstart =>
      cases h
      exact ⟨.return_ word, rfl, rfl, Bool.eq_false_iff.2 hstart⟩
  next word ts =>
    obtain ⟨⟨body, ts₁⟩, hbody, h₁⟩ := exceptBind_eq_ok.1 h
    cases h₁
    obtain ⟨b, rfl, rfl, hb⟩ := ih.block hbody
    exact ⟨.loop word b, rfl, rfl, hb⟩
  next word ts =>
    obtain ⟨⟨cond, ts₁⟩, hcond, h₁⟩ := exceptBind_eq_ok.1 h
    obtain ⟨⟨body, ts₂⟩, hbody, h₂⟩ := exceptBind_eq_ok.1 h₁
    obtain ⟨⟨more, ts₃⟩, hmore, h₃⟩ := exceptBind_eq_ok.1 h₂
    cases h₃
    obtain ⟨p, b, q, rfl, ⟨rfl, rfl, rfl⟩, hwhole⟩ := guarded_readsStmts ih hcond hbody hmore
    refine ⟨.if_ word p b q, ?_, rfl, hwhole⟩
    simp [StmtPhrase.lexemes, Keyword.at]
  next s nameSpan opening ts =>
    obtain ⟨⟨c, ts₁⟩, hcall, h₁⟩ := exceptBind_eq_ok.1 h
    cases h₁
    obtain ⟨p, hp, rfl, hwhole⟩ := exists_phrase_of_call hcall
    exact ⟨.call p, hp, rfl, hwhole⟩
  -- a name that no parenthesis follows, alone or with something assigned to it
  next s span ts hopening =>
    split at h
    next hnone =>
      cases h
      refine ⟨.lone s span, rfl, rfl, ?_, hnone⟩
      rintro ⟨token, opening⟩ hhead rfl
      obtain ⟨more, rfl⟩ := List.head?_eq_some_iff.1 hhead
      exact hopening opening more rfl
    next op ts₁ hassign =>
      obtain ⟨⟨sign, ts₂⟩, hsign, h₁⟩ := exceptBind_eq_ok.1 h
      obtain ⟨⟨value, ts₃⟩, hvalue, h₂⟩ := exceptBind_eq_ok.1 h₁
      cases h₂
      obtain ⟨place, sign', more, rfl, rfl, hplace, rfl⟩ := assignment?_eq_some hassign
      rw [mark_at] at hsign
      cases hsign
      obtain ⟨p, rfl, rfl, hp⟩ := exists_phrase_of_expr hvalue
      refine ⟨.assign s span place sign p, ?_, rfl, hplace, hp⟩
      rw [StmtPhrase.lexemes, List.cons_append, List.append_assoc, List.cons_append]
  · exact absurd h fail_ne_ok

end

private theorem readsStmts (source : String) : ∀ fuel, ReadsStmts source fuel
  | 0 =>
    { block := fun h ↦ absurd (by rwa [block] at h) fail_ne_ok
      stmts := fun h ↦ absurd (by rwa [stmts] at h) fail_ne_ok
      stmt := fun h ↦ absurd (by rwa [stmt] at h) fail_ne_ok
      branches := fun hfuel ↦ absurd hfuel (Nat.lt_irrefl 0) }
  | fuel + 1 =>
    have ih := readsStmts source fuel
    ⟨block_readsStmts ih, stmts_readsStmts ih, stmt_readsStmts ih, fun _ ↦ branches_readsStmts ih⟩

/-- A block that was read is a phrase, and all that could be read. -/
theorem exists_phrase_of_block {fuel : Nat} {ts : List Lexeme} {b : Block} {rest : List Lexeme}
    (h : block source fuel ts = .ok (b, rest)) :
    ∃ p : BlockPhrase, ts = p.lexemes ++ rest ∧ p.tree source = b ∧ p.Whole rest :=
  (readsStmts source fuel).block h

/-- A statement that was read is a phrase, and all that could be read. -/
theorem exists_phrase_of_stmt {fuel : Nat} {ts : List Lexeme} {s : Stmt} {rest : List Lexeme}
    (h : stmt source fuel ts = .ok (s, rest)) :
    ∃ p : StmtPhrase, ts = p.lexemes ++ rest ∧ p.tree source = s ∧ p.Whole rest :=
  (readsStmts source fuel).stmt h

/-! ## A phrase is read -/

theorem assignment?_at {place : Option (BinOp × Span)}
    (h : ∀ o ∈ place, BinOp.ofCompound? o.1.punct = some o.1) (sign : Span) (ts : List Lexeme) :
    assignment? ((place.map fun o ↦ o.1.punct.at o.2).toList ++ Punct.eq.at sign :: ts) =
      some (place.map (·.1), Punct.eq.at sign :: ts) := by
  cases place with
  | none => rfl
  | some o =>
    obtain ⟨op, span⟩ := o
    have hop := h (op, span) rfl
    cases op <;> first | rfl | cases hop

/-- A statement that starts like a call is a call. -/
theorem stmt_call (c : CallPhrase) (fuel : Nat) (rest : List Lexeme) :
    stmt source (fuel + 1) (c.lexemes ++ rest) =
      call source fuel (c.lexemes ++ rest) >>= fun r ↦ .ok (.call r.1, r.2) := by
  cases c with
  | empty head closing | full head args closing =>
    obtain ⟨collapse, name, nameSpan, opening⟩ := head
    cases collapse with
    | none | some span => rfl

/-- What is proved of all readers of statements at once, for one bound on their steps. -/
private structure TakesStmts (source : String) (fuel : Nat) : Prop where
  /-- A block. -/
  block : ∀ {p : BlockPhrase} {rest}, p.Whole rest → 2 * p.lexemes.length ≤ fuel + 2 →
    block source fuel (p.lexemes ++ rest) = .ok (p.tree source, rest)
  /-- Statements up to the closing brace, behind those already read. -/
  stmts : ∀ {p : StmtsPhrase} {done closing rest}, p.Whole (Punct.closeBrace.at closing :: rest) →
    2 * p.lexemes.length + 1 ≤ fuel →
    stmts source fuel done (p.lexemes ++ Punct.closeBrace.at closing :: rest) =
      .ok (done.reverse ++ p.trees source, Punct.closeBrace.at closing :: rest)
  /-- A statement. -/
  stmt : ∀ {p : StmtPhrase} {rest}, p.Whole rest → 2 * p.lexemes.length ≤ fuel →
    stmt source fuel (p.lexemes ++ rest) = .ok (p.tree source, rest)
  /-- What comes behind a condition. -/
  branches : ∀ {p : BranchesPhrase} {rest}, p.Whole rest → 2 * p.lexemes.length ≤ fuel →
    branches source fuel (p.lexemes ++ rest) = .ok (p.tree source, rest)

section

variable {fuel : Nat} (ih : TakesStmts source fuel)
include ih

private theorem block_takesStmts {p : BlockPhrase} {rest : List Lexeme} (h : p.Whole rest)
    (hfuel : 2 * p.lexemes.length ≤ fuel + 3) :
    block source (fuel + 1) (p.lexemes ++ rest) = .ok (p.tree source, rest) := by
  obtain ⟨opening, stmts, closing⟩ := p
  rw [BlockPhrase.lexemes, List.length_cons, List.length_append, List.length_singleton] at hfuel
  rw [BlockPhrase.lexemes, List.cons_append, List.append_assoc, List.singleton_append, block,
    mark_at]
  show Parser.stmts source fuel [] _ >>= _ = _
  rw [ih.stmts h (by omega)]
  rfl

private theorem stmts_takesStmts {p : StmtsPhrase} {done : List Stmt} {closing : Span}
    {rest : List Lexeme} (h : p.Whole (Punct.closeBrace.at closing :: rest))
    (hfuel : 2 * p.lexemes.length + 1 ≤ fuel + 1) :
    stmts source (fuel + 1) done (p.lexemes ++ Punct.closeBrace.at closing :: rest) =
      .ok (done.reverse ++ p.trees source, Punct.closeBrace.at closing :: rest) := by
  cases p with
  | nil =>
    rw [StmtsPhrase.trees, List.append_nil]
    rfl
  | cons s more =>
    have hpos := s.length_lexemes_pos
    have hstart := s.startsStmt_lexemes (more.lexemes ++ Punct.closeBrace.at closing :: rest)
    rw [StmtsPhrase.lexemes, List.length_append] at hfuel
    rw [StmtsPhrase.lexemes, List.append_assoc, stmts.eq_def]
    dsimp only
    split
    next heq =>
      rw [heq] at hstart
      cases hstart
    next heq =>
      rw [heq] at hstart
      cases hstart
    next heq =>
      rw [heq] at hstart
      cases hstart
    · rw [ih.stmt h.1 (by omega)]
      show stmts source fuel (s.tree source :: done) _ = _
      rw [ih.stmts h.2 (by omega), List.reverse_cons, List.append_assoc]
      rfl

private theorem branches_takesStmts {p : BranchesPhrase} {rest : List Lexeme} (h : p.Whole rest)
    (hfuel : 2 * p.lexemes.length ≤ fuel + 1) :
    branches source (fuel + 1) (p.lexemes ++ rest) = .ok (p.tree source, rest) := by
  cases p with
  | done =>
    rw [BranchesPhrase.lexemes, List.nil_append, branches.eq_def]
    dsimp only
    split
    · exact h.elim
    · exact h.elim
    · rfl
  | else_ word body =>
    rw [BranchesPhrase.lexemes, List.length_cons] at hfuel
    rw [BranchesPhrase.lexemes, List.cons_append, Keyword.at, branches, ih.block h (by omega)]
    rfl
  | elif word cond body more =>
    have hbody := body.two_le_length
    rw [BranchesPhrase.lexemes, List.length_cons, List.length_append, List.length_append] at hfuel
    rw [BranchesPhrase.lexemes, List.cons_append, List.append_assoc, List.append_assoc, Keyword.at,
      branches, expr_of_whole h.1 (by omega)]
    show block source fuel _ >>= _ = _
    rw [ih.block h.2.1 (by omega)]
    show branches source fuel _ >>= _ = _
    rw [ih.branches h.2.2 (by omega)]
    rfl

private theorem stmt_takesStmts {p : StmtPhrase} {rest : List Lexeme} (h : p.Whole rest)
    (hfuel : 2 * p.lexemes.length ≤ fuel + 1) :
    stmt source (fuel + 1) (p.lexemes ++ rest) = .ok (p.tree source, rest) := by
  cases p with
  | break_ word => rfl
  | call c =>
    rw [StmtPhrase.lexemes] at hfuel ⊢
    rw [stmt_call, call_of_settled h.1 h.2 (by omega)]
    rfl
  | let_ word s nameSpan sign value =>
    rw [StmtPhrase.lexemes, List.length_cons, List.length_cons, List.length_cons] at hfuel
    have hvalue : expr source fuel 0 (value.lexemes ++ rest) = .ok (value.tree source, rest) :=
      expr_of_whole h (by omega)
    rw [StmtPhrase.lexemes, List.cons_append, List.cons_append, List.cons_append, Keyword.at, stmt]
    show expr source fuel 0 _ >>= _ = _
    rw [hvalue]
    rfl
  | assign s nameSpan op sign value =>
    rw [StmtPhrase.lexemes, List.length_cons, List.length_append, List.length_cons] at hfuel
    have hassign := assignment?_at h.1 sign (value.lexemes ++ rest)
    rw [StmtPhrase.lexemes, List.cons_append, List.append_assoc, List.cons_append, stmt, hassign]
    · show mark .eq _ >>= _ = _
      rw [mark_at]
      show expr source fuel 0 _ >>= _ = _
      rw [expr_of_whole h.2 (by omega)]
      rfl
    -- what assigns is no parenthesis, so the name is not read as a call
    · intro opening ts heq
      cases op with
      | none => cases heq
      | some o =>
        exact noOpening_operator o.1 o.2 [] _ rfl (congrArg Lexeme.token (List.cons.inj heq).1)
  | return_ word =>
    have hstart : startsExpr rest = false := h
    rw [StmtPhrase.lexemes, List.singleton_append, Keyword.at, stmt, hstart]
    rfl
  | returnValue word value =>
    rw [StmtPhrase.lexemes, List.length_cons] at hfuel
    rw [StmtPhrase.lexemes, List.cons_append, Keyword.at, stmt, value.startsExpr_lexemes rest,
      if_pos rfl, expr_of_whole h (by omega)]
    rfl
  | loop word body =>
    rw [StmtPhrase.lexemes, List.length_cons] at hfuel
    rw [StmtPhrase.lexemes, List.cons_append, Keyword.at, stmt, ih.block h (by omega)]
    rfl
  | if_ word cond body more =>
    have hbody := body.two_le_length
    rw [StmtPhrase.lexemes, List.length_cons, List.length_append, List.length_append] at hfuel
    rw [StmtPhrase.lexemes, List.cons_append, List.append_assoc, List.append_assoc, Keyword.at,
      stmt, expr_of_whole h.1 (by omega)]
    show block source fuel _ >>= _ = _
    rw [ih.block h.2.1 (by omega)]
    show branches source fuel _ >>= _ = _
    rw [ih.branches h.2.2 (by omega)]
    rfl
  | lone s span =>
    rw [StmtPhrase.lexemes, List.singleton_append, stmt, h.2]
    · rfl
    · rintro opening more rfl
      exact h.1 _ rfl rfl

end

private theorem takesStmts (source : String) : ∀ fuel, TakesStmts source fuel
  | 0 => by
    refine ⟨fun {p} _ _ hfuel ↦ ?_, fun _ hfuel ↦ ?_, fun {p} _ _ hfuel ↦ ?_,
      fun {p} _ _ hfuel ↦ ?_⟩
    · have := p.two_le_length
      omega
    · omega
    · have := p.length_lexemes_pos
      omega
    · cases p with
      | done => rfl
      | else_ word body =>
        rw [BranchesPhrase.lexemes, List.length_cons] at hfuel
        omega
      | elif word cond body more =>
        rw [BranchesPhrase.lexemes, List.length_cons] at hfuel
        omega
  | fuel + 1 =>
    have ih := takesStmts source fuel
    ⟨block_takesStmts ih, stmts_takesStmts ih, stmt_takesStmts ih, branches_takesStmts ih⟩

/-- A whole block is read. -/
theorem block_of_whole {p : BlockPhrase} {fuel : Nat} {rest : List Lexeme} (h : p.Whole rest)
    (hfuel : 2 * p.lexemes.length ≤ fuel + 2) :
    block source fuel (p.lexemes ++ rest) = .ok (p.tree source, rest) :=
  (takesStmts source fuel).block h hfuel

/-- A whole statement is read. -/
theorem stmt_of_whole {p : StmtPhrase} {fuel : Nat} {rest : List Lexeme} (h : p.Whole rest)
    (hfuel : 2 * p.lexemes.length ≤ fuel) :
    stmt source fuel (p.lexemes ++ rest) = .ok (p.tree source, rest) :=
  (takesStmts source fuel).stmt h hfuel

end Parser

end CharacterScript
