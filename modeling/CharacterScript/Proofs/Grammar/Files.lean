import CharacterScript.Proofs.Grammar.Statements
import Mathlib.Data.List.Chain

/-!
# Files as they are written

An `ItemPhrase` is a top-level item with everything that was written for it, and a file is a list of
them in front of the end mark. `parseFile` accepts the files whose items are whole, each in front of
the next (`parseFile_eq_ok_iff`), and answers with their trees.

## Where an item ends

An item ends by its own form, in nearly all cases: a callable with its brace, a path with its
line. The body of a definition is an expression and ends where no operator comes next. Items start
with keywords and directives, which are none, so a file can be read item by item and each is whole
in front of the rest.

References come before the other parameters. The reader refuses the first one that comes later, so
a list of parameters that was read has them in this order, and their number is the length of its
front.
-/

namespace CharacterScript

open Running

/-! ## Parameters -/

/-- The token a parameter is written with. -/
def Param.token (p : Param) : Token :=
  if p.isRef then .reference p.name else .name p.name

/-- A parameter list: those with a comma behind them, and the last one. -/
inductive ParamsPhrase where
  | empty (opening closing : Span)
  | full (opening : Span) (front : List (Param × Span)) (last : Param) (closing : Span)

namespace ParamsPhrase

def lexemes : ParamsPhrase → List Lexeme
  | empty opening closing => [Punct.openParen.at opening, Punct.closeParen.at closing]
  | full opening front last closing =>
    Punct.openParen.at opening ::
      (front.flatMap (fun p ↦ [⟨p.1.token, p.1.span⟩, Punct.comma.at p.2]) ++
        [⟨last.token, last.span⟩, Punct.closeParen.at closing])

def params : ParamsPhrase → List Param
  | empty _ _ => []
  | full _ front last _ => front.map (·.1) ++ [last]

/-- Reference parameters come first. -/
def RefsFirst (p : ParamsPhrase) : Prop :=
  p.params.IsChain fun a b ↦ b.isRef → a.isRef

end ParamsPhrase

/-! ## Items -/

inductive ItemPhrase where
  | directive (d : PathDirective) (path : String) (span : Span)
  | global (word : Span) (s : String) (span : Span)
  | define (word : Span) (s : String) (nameSpan : Span) (body : Phrase)
  | callable (kind : CallableKind) (word : Span) (s : String) (nameSpan : Span)
      (params : ParamsPhrase) (body : BlockPhrase)

/-- The keyword of a kind of callable. -/
def CallableKind.keyword : CallableKind → Keyword
  | .script => .script
  | .function => .fn

namespace ItemPhrase

def lexemes : ItemPhrase → List Lexeme
  | directive d path span => [⟨.directive d path, span⟩]
  | global word s span => [Keyword.global.at word, ⟨.name s, span⟩]
  | define word s nameSpan body => ⟨.defineWord, word⟩ :: ⟨.name s, nameSpan⟩ :: body.lexemes
  | callable kind word s nameSpan params body =>
    kind.keyword.at word :: ⟨.name s, nameSpan⟩ :: (params.lexemes ++ body.lexemes)

def tree (source : String) : ItemPhrase → Item
  | directive d path span => .directive d path span
  | global word s span => .global s (word.merge span)
  | define word s nameSpan body =>
    .define ⟨s, nameSpan, body.tree source, Parser.captured source (body.tree source).span,
      word.merge (body.tree source).span⟩
  | callable kind word s nameSpan params body =>
    .callable ⟨kind, s, nameSpan, params.params, body.tree source,
      word.merge (body.tree source).span⟩

/-- The item is all that is read in front of `rest`. -/
def Whole : ItemPhrase → List Lexeme → Prop
  | directive _ _ _, _ | global _ _ _, _ => True
  | define _ _ _ body, rest => body.Whole 0 rest
  | callable _ _ _ _ params body, rest => params.RefsFirst ∧ body.Whole rest

end ItemPhrase

namespace ItemPhrase

theorem exists_cons (p : ItemPhrase) : ∃ l ls, p.lexemes = l :: ls ∧ l.token ≠ .eof := by
  cases p with
  | directive | global | define | callable => exact ⟨_, _, rfl, nofun⟩

theorem inner_params (p : ParamsPhrase) : Inner p.lexemes := by
  have htoken : ∀ q : Param, q.token.isInner = true := by
    rintro ⟨name, isRef, span⟩
    cases isRef <;> rfl
  cases p with
  | empty => simp [ParamsPhrase.lexemes]
  | full opening front last closing =>
    have hfront : Inner (front.flatMap fun q ↦ [⟨q.1.token, q.1.span⟩, Punct.comma.at q.2]) := by
      intro l hl
      obtain ⟨q, -, hl⟩ := List.mem_flatMap.1 hl
      obtain rfl | rfl := by simpa using hl
      · exact htoken q.1
      · rfl
    have hlast : Inner [⟨last.token, last.span⟩, Punct.closeParen.at closing] :=
      inner_cons.2 ⟨htoken last, by simp⟩
    exact inner_cons.2 ⟨rfl, inner_append.2 ⟨hfront, hlast⟩⟩

/-- An item is a path directive, or there is none in it. -/
theorem directive_or_inner (p : ItemPhrase) :
    (∃ d path span, p = directive d path span) ∨ Inner p.lexemes := by
  cases p with
  | directive d path span => exact .inl ⟨d, path, span, rfl⟩
  | global => simp [lexemes]
  | define word s nameSpan body => simp [lexemes, body.inner]
  | callable kind word s nameSpan params body => simp [lexemes, inner_params params, body.inner]

theorem noEof (p : ItemPhrase) : NoEof p.lexemes := by
  obtain ⟨d, path, span, rfl⟩ | hinner := p.directive_or_inner
  · exact noEof_cons.2 ⟨nofun, nofun⟩
  · exact hinner.noEof

end ItemPhrase

theorem noEof_flatMap (ps : List ItemPhrase) : NoEof (ps.flatMap ItemPhrase.lexemes) := by
  intro l hl
  obtain ⟨p, -, hl⟩ := List.mem_flatMap.1 hl
  exact p.noEof l hl

theorem length_le_flatMap (ps : List ItemPhrase) :
    ps.length ≤ (ps.flatMap ItemPhrase.lexemes).length := by
  induction ps with
  | nil => exact Nat.le_refl 0
  | cons p ps ih =>
    obtain ⟨l, ls, hl, -⟩ := p.exists_cons
    rw [List.flatMap_cons, List.length_append, hl, List.length_cons, List.length_cons]
    omega

/-- The items are whole, each in front of the next. -/
def ItemsWhole : List ItemPhrase → List Lexeme → Prop
  | [], _ => True
  | i :: items, rest => i.Whole (items.flatMap ItemPhrase.lexemes ++ rest) ∧ ItemsWhole items rest

namespace Parser

variable {source : String}

/-! ## What is read is a phrase

The reader of items is followed through its cases, and each gives the phrase that was read and
what is left. -/

theorem param?_eq_some {t : Token} {s : String} {isRef : Bool} {span : Span}
    (h : param? t = some (s, isRef)) : t = (Param.mk s isRef span).token := by
  rw [param?.eq_def] at h
  split at h
  · cases h
    rfl
  · cases h
    rfl
  · cases h

@[simp] theorem param?_token (p : Param) : param? p.token = some (p.name, p.isRef) := by
  obtain ⟨name, isRef, span⟩ := p
  cases isRef <;> rfl

/-- A reference parameter may follow, in the reversed list of those already read. -/
theorem isChain_cons_param {p : Param} {done : List Param}
    (hdone : done.IsChain fun b a ↦ b.isRef → a.isRef) :
    ((p :: done).IsChain fun b a ↦ b.isRef → a.isRef) ↔
      ¬ (p.isRef && done.head?.any (!·.isRef)) = true := by
  rw [List.isChain_cons]
  cases done with
  | nil => simp
  | cons q done =>
    cases p.isRef <;> cases hq : q.isRef <;> simp [hq, hdone]

theorem exists_params {done ps : List Param} {ts rest : List Lexeme}
    (h : params done ts = .ok (ps, rest)) (hdone : done.IsChain fun b a ↦ b.isRef → a.isRef) :
    ∃ (front : List (Param × Span)) (last : Param) (closing : Span),
      ts = front.flatMap (fun p ↦ [⟨p.1.token, p.1.span⟩, Punct.comma.at p.2]) ++
        (⟨last.token, last.span⟩ :: Punct.closeParen.at closing :: rest) ∧
      ps = done.reverse ++ (front.map (·.1) ++ [last]) ∧
      ps.IsChain fun a b ↦ b.isRef → a.isRef := by
  induction done, ts using params.induct with
  | case1 done => exact absurd (by rwa [params] at h) fail_ne_ok
  | case2 done l ts hparam =>
    rw [params, hparam] at h
    exact absurd h fail_ne_ok
  | case3 done l ts s isRef hparam hrefs =>
    rw [params, hparam] at h
    dsimp only at h
    rw [if_pos hrefs] at h
    exact absurd h fail_ne_ok
  | case4 done l s isRef hparam hrefs done' comma ts ih =>
    rw [params, hparam] at h
    dsimp only at h
    rw [if_neg hrefs] at h
    obtain ⟨front, last, closing, rfl, rfl, hchain⟩ := ih h ((isChain_cons_param hdone).2 hrefs)
    refine ⟨(⟨s, isRef, l.span⟩, comma) :: front, last, closing, ?_, ?_, hchain⟩
    · rw [List.flatMap_cons, ← param?_eq_some hparam]
      rfl
    · simp [done']
  -- no comma comes next, so this parameter is the last one
  | case5 done l s isRef hparam hrefs ts hcomma =>
    have hchain := (isChain_cons_param (p := ⟨s, isRef, l.span⟩) hdone).2 hrefs
    rw [params, hparam] at h
    dsimp only at h
    rw [if_neg hrefs] at h
    split at h
    next comma ts => exact (hcomma comma ts rfl).elim
    · obtain ⟨⟨closing, ts₁⟩, hclosing, h₁⟩ := exceptBind_eq_ok.1 h
      rw [mark_eq_ok] at hclosing
      cases h₁
      subst hclosing
      refine ⟨[], ⟨s, isRef, l.span⟩, closing, ?_, by simp, ?_⟩
      · rw [← param?_eq_some hparam]
        rfl
      · rw [List.isChain_reverse]
        exact hchain

theorem exists_paramList {ps : List Param} {ts rest : List Lexeme}
    (h : paramList ts = .ok (ps, rest)) :
    ∃ p : ParamsPhrase, ts = p.lexemes ++ rest ∧ p.params = ps ∧ p.RefsFirst := by
  rw [paramList] at h
  obtain ⟨⟨opening, ts₁⟩, hopening, h₁⟩ := exceptBind_eq_ok.1 h
  rw [mark_eq_ok] at hopening
  subst hopening
  dsimp only at h₁
  split at h₁
  next closing ts =>
    cases h₁
    exact ⟨.empty opening closing, rfl, rfl, .nil⟩
  · obtain ⟨front, last, closing, rfl, rfl, hchain⟩ := exists_params h₁ .nil
    refine ⟨.full opening front last closing, ?_, rfl, hchain⟩
    simp [ParamsPhrase.lexemes, Punct.at]

private theorem exists_callable {fuel : Nat} {kind : CallableKind} {word : Span} {i : Item}
    {ts rest : List Lexeme} (h : callable source fuel kind word ts = .ok (i, rest)) :
    ∃ p : ItemPhrase, kind.keyword.at word :: ts = p.lexemes ++ rest ∧ p.tree source = i ∧
      p.Whole rest := by
  rw [callable] at h
  obtain ⟨⟨⟨s, nameSpan⟩, ts₁⟩, hname, h₁⟩ := exceptBind_eq_ok.1 h
  obtain ⟨⟨ps, ts₂⟩, hps, h₂⟩ := exceptBind_eq_ok.1 h₁
  obtain ⟨⟨body, ts₃⟩, hbody, h₃⟩ := exceptBind_eq_ok.1 h₂
  cases h₃
  rw [name_eq_ok] at hname
  subst hname
  obtain ⟨p, rfl, rfl, hrefs⟩ := exists_paramList hps
  obtain ⟨b, rfl, rfl, hb⟩ := exists_phrase_of_block hbody
  refine ⟨.callable kind word s nameSpan p b, ?_, rfl, hrefs, hb⟩
  simp [ItemPhrase.lexemes]

theorem exists_phrase_of_item {fuel : Nat} {ts : List Lexeme} {i : Item} {rest : List Lexeme}
    (h : item source fuel ts = .ok (i, rest)) :
    ∃ p : ItemPhrase, ts = p.lexemes ++ rest ∧ p.tree source = i ∧ p.Whole rest := by
  rw [item.eq_def] at h
  split at h
  next d path span ts =>
    cases h
    exact ⟨.directive d path span, rfl, rfl, trivial⟩
  next word ts =>
    obtain ⟨⟨⟨s, span⟩, ts₁⟩, hname, h₁⟩ := exceptBind_eq_ok.1 h
    cases h₁
    rw [name_eq_ok] at hname
    subst hname
    exact ⟨.global word s span, rfl, rfl, trivial⟩
  next word ts =>
    obtain ⟨⟨⟨s, nameSpan⟩, ts₁⟩, hname, h₁⟩ := exceptBind_eq_ok.1 h
    obtain ⟨⟨body, ts₂⟩, hbody, h₂⟩ := exceptBind_eq_ok.1 h₁
    cases h₂
    rw [name_eq_ok] at hname
    subst hname
    obtain ⟨p, rfl, rfl, hp⟩ := exists_phrase_of_expr hbody
    exact ⟨.define word s nameSpan p, rfl, rfl, hp⟩
  next word ts => exact exists_callable h
  next word ts => exact exists_callable h
  · exact absurd h fail_ne_ok

/-- Whether there is nothing left but the end mark and what may stand behind it. -/
def AtEnd : List Lexeme → Prop
  | ⟨.eof, _⟩ :: _ | [] => True
  | _ => False

theorem exists_phrases_of_items {fuel n : Nat} {done result : List Item} {ts : List Lexeme}
    (h : items source fuel n done ts = .ok result) :
    ∃ (ps : List ItemPhrase) (rest : List Lexeme),
      ts = ps.flatMap ItemPhrase.lexemes ++ rest ∧
      result = done.reverse ++ ps.map (ItemPhrase.tree source) ∧ ItemsWhole ps rest ∧
      AtEnd rest := by
  induction n generalizing done ts with
  | zero => exact absurd (by rwa [items] at h) fail_ne_ok
  | succ n ih =>
    rw [items.eq_def] at h
    dsimp only at h
    split at h
    next stop rest =>
      cases h
      exact ⟨[], ⟨.eof, stop⟩ :: rest, rfl, by simp, trivial, trivial⟩
    · cases h
      exact ⟨[], [], rfl, by simp, trivial, trivial⟩
    · obtain ⟨⟨i, ts₁⟩, hi, h₁⟩ := exceptBind_eq_ok.1 h
      obtain ⟨p, rfl, rfl, hp⟩ := exists_phrase_of_item hi
      obtain ⟨ps, rest, rfl, rfl, hps, hend⟩ := ih h₁
      refine ⟨p :: ps, rest, ?_, ?_, ⟨hp, hps⟩, hend⟩
      · rw [List.flatMap_cons, List.append_assoc]
      · simp

/-! ## A phrase is read

The other direction has the phrase and finds the reader accepting it. The steps are enough because
there are four of them for each lexeme. -/

theorem params_of_chain {done : List Param} {front : List (Param × Span)} {last : Param}
    {closing : Span} {rest : List Lexeme}
    (h : (done.reverse ++ (front.map (·.1) ++ [last])).IsChain fun a b ↦ b.isRef → a.isRef) :
    params done (front.flatMap (fun p ↦ [⟨p.1.token, p.1.span⟩, Punct.comma.at p.2]) ++
      (⟨last.token, last.span⟩ :: Punct.closeParen.at closing :: rest)) =
      .ok (done.reverse ++ (front.map (·.1) ++ [last]), rest) := by
  -- the next parameter may follow those already read
  have hnext : ∀ {done : List Param} {p : Param} {more : List Param},
      ((done.reverse ++ p :: more).IsChain fun a b ↦ b.isRef → a.isRef) →
      ¬ (p.isRef && done.head?.any (!·.isRef)) = true := by
    intro done p more h
    have hfront : ((p :: done).reverse).IsChain fun a b ↦ b.isRef → a.isRef := by
      rw [List.reverse_cons]
      exact h.prefix ⟨more, by simp⟩
    rw [List.isChain_reverse] at hfront
    exact (isChain_cons_param hfront.tail).1 hfront
  induction front generalizing done with
  | nil =>
    rw [List.flatMap_nil, List.nil_append, params, param?_token]
    dsimp only
    rw [if_neg (hnext h)]
    show Except.ok ((last :: done).reverse, rest) = _
    rw [List.reverse_cons]
    rfl
  | cons p front ih =>
    have htail : ((p.1 :: done).reverse ++ (front.map (·.1) ++ [last])).IsChain
        fun a b ↦ b.isRef → a.isRef := by
      rw [List.reverse_cons, List.append_assoc]
      exact h
    rw [List.flatMap_cons, List.append_assoc, List.cons_append, params, param?_token]
    dsimp only
    rw [if_neg (hnext h)]
    refine (ih htail).trans ?_
    rw [List.reverse_cons, List.append_assoc]
    rfl

theorem paramList_of_refsFirst {p : ParamsPhrase} {rest : List Lexeme} (h : p.RefsFirst) :
    paramList (p.lexemes ++ rest) = .ok (p.params, rest) := by
  cases p with
  | empty opening closing => rfl
  | full opening front last closing =>
    -- a parameter comes first, and so no closing parenthesis
    have hfirst : ∀ (q : Param) (ts : List Lexeme),
        paramList (Punct.openParen.at opening :: ⟨q.token, q.span⟩ :: ts) =
          params [] (⟨q.token, q.span⟩ :: ts) := by
      rintro ⟨name, isRef, span⟩ ts
      cases isRef <;> rfl
    have hparams : params [] (front.flatMap (fun p ↦ [⟨p.1.token, p.1.span⟩, Punct.comma.at p.2]) ++
        (⟨last.token, last.span⟩ :: Punct.closeParen.at closing :: rest)) =
        .ok (front.map (·.1) ++ [last], rest) := params_of_chain h
    rw [ParamsPhrase.lexemes, List.cons_append, List.append_assoc]
    cases front with
    | nil => exact (hfirst last _).trans hparams
    | cons q front => exact (hfirst q.1 _).trans hparams

theorem item_of_whole {p : ItemPhrase} {fuel : Nat} {rest : List Lexeme} (h : p.Whole rest)
    (hfuel : 2 * p.lexemes.length ≤ fuel) :
    item source fuel (p.lexemes ++ rest) = .ok (p.tree source, rest) := by
  cases p with
  | directive d path span => rfl
  | global word s span => rfl
  | define word s nameSpan body =>
    rw [ItemPhrase.lexemes, List.length_cons, List.length_cons] at hfuel
    rw [ItemPhrase.lexemes, List.cons_append, List.cons_append, item]
    show expr source fuel 0 _ >>= _ = _
    rw [expr_of_whole h (by omega)]
    rfl
  | callable kind word s nameSpan params body =>
    rw [ItemPhrase.lexemes, List.length_cons, List.length_cons, List.length_append] at hfuel
    have hcallable : callable source fuel kind word
        (⟨.name s, nameSpan⟩ :: (params.lexemes ++ (body.lexemes ++ rest))) =
        .ok ((ItemPhrase.callable kind word s nameSpan params body).tree source, rest) := by
      show paramList _ >>= _ = _
      rw [paramList_of_refsFirst h.1]
      show block source fuel _ >>= _ = _
      rw [block_of_whole h.2 (by omega)]
      rfl
    rw [ItemPhrase.lexemes, List.cons_append, List.cons_append, List.append_assoc]
    cases kind with
    | script | function => exact hcallable

theorem items_of_whole {fuel : Nat} {stop : Span} : ∀ {ps : List ItemPhrase} {n : Nat}
    {done : List Item}, ItemsWhole ps [⟨.eof, stop⟩] →
    2 * (ps.flatMap ItemPhrase.lexemes).length ≤ fuel → ps.length < n →
    items source fuel n done (ps.flatMap ItemPhrase.lexemes ++ [⟨.eof, stop⟩]) =
      .ok (done.reverse ++ ps.map (ItemPhrase.tree source)) := by
  intro ps
  induction ps with
  | nil =>
    intro n done _ _ hn
    obtain ⟨n, rfl⟩ := Nat.exists_eq_succ_of_ne_zero (Nat.ne_of_gt hn)
    simp [items]
  | cons p ps ih =>
    intro n done h hfuel hn
    obtain ⟨n, rfl⟩ := Nat.exists_eq_succ_of_ne_zero (Nat.ne_of_gt (Nat.zero_lt_of_lt hn))
    obtain ⟨l, ls, hl, hne⟩ := p.exists_cons
    rw [List.flatMap_cons, List.length_append] at hfuel
    have hitem : item source fuel (p.lexemes ++ (ps.flatMap ItemPhrase.lexemes ++ [⟨.eof, stop⟩])) =
        .ok (p.tree source, ps.flatMap ItemPhrase.lexemes ++ [⟨.eof, stop⟩]) :=
      item_of_whole h.1 (by omega)
    rw [List.flatMap_cons, List.append_assoc, items.eq_def]
    dsimp only
    split
    next heq =>
      rw [hl] at heq
      exact absurd (congrArg Lexeme.token (List.cons.inj heq).1) hne
    next heq =>
      rw [hl] at heq
      cases heq
    · rw [hitem]
      refine (ih h.2 (by omega) (by simpa using hn)).trans ?_
      simp

end Parser

/-! ## Whole files -/

/-- A file is accepted exactly if it is a list of items, each of them all that is read in front of
the next. -/
theorem parseFile_eq_ok_iff {source : String} {body : List Lexeme} {stop : Span} {items : List Item}
    (hbody : NoEof body) :
    parseFile source (body ++ [⟨.eof, stop⟩]) = .ok items ↔
      ∃ ps : List ItemPhrase, ps.flatMap ItemPhrase.lexemes = body ∧ ItemsWhole ps [⟨.eof, stop⟩] ∧
        ps.map (ItemPhrase.tree source) = items := by
  constructor
  · intro h
    obtain ⟨ps, rest, hts, rfl, hps, hend⟩ := Parser.exists_phrases_of_items h
    have hnoEof : NoEof (ps.flatMap ItemPhrase.lexemes) := noEof_flatMap ps
    rw [Parser.AtEnd.eq_def] at hend
    split at hend
    next stop' rest =>
      obtain ⟨hlex, hrest⟩ := eq_of_append_eof hbody hnoEof hts
      exact ⟨ps, hlex.symm, hrest ▸ hps, rfl⟩
    · rw [List.append_nil] at hts
      exact ((hts ▸ hnoEof) _ List.mem_concat_self rfl).elim
    · exact hend.elim
  · rintro ⟨ps, rfl, hps, rfl⟩
    refine Parser.items_of_whole hps ?_ ?_
    · rw [Parser.steps, List.length_append]
      omega
    · have := length_le_flatMap ps
      rw [List.length_append]
      omega

end CharacterScript
