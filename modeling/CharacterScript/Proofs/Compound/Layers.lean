import CharacterScript.Proofs.Compound.Bodies
import CharacterScript.Proofs.Relocation.Definitions
import CharacterScript.Proofs.Relocation.Layers

/-!
# Layers with compound assignments spelled out

A layer compiles to the same with every `x op= e` in its bodies spelled out, and if it is refused,
it is refused for the same reason (`Session.Reachable.compile_spelled`).

Where a body starts the variables in sight are the globals and the parameters. A global never has
the name of a definition. A parameter is compared with what was declared in front of its callable,
so a definition with its name stands behind the callable, and the body does not see it.

## Why reachability is asked for

The names of a program a session reaches are kept apart, and that is all this rests on. In a
program put together at will, a global and a definition could share a name, and then the two ways
of writing an assignment would read different things.
-/

namespace CharacterScript

open Running

/-! ## Items -/

def CallableDecl.spelled (d : CallableDecl) : CallableDecl :=
  { d with body := d.body.spelled }

/-- The item with the body of a callable spelled out. -/
def Item.spelled : Item → Item
  | .callable d => .callable d.spelled
  | i => i

namespace Layer

variable {l : Layer} {p q : Program} {items : List Item}

theorem declareItem_spelled (i : Item) : l.declareItem i.spelled = l.declareItem i := by
  cases i <;> rfl

theorem declareAll_spelled : l.declareAll (items.map Item.spelled) = l.declareAll items := by
  induction items with
  | nil => rfl
  | cons i items ih => rw [List.map_cons, declareAll, declareAll, declareItem_spelled, ih]

theorem info_spelled : l.info (items.map Item.spelled) = l.info items := by
  have hdirective : ∀ d, l.directive? d (items.map Item.spelled) = l.directive? d items := by
    intro d
    rw [directive?, directive?, List.findSome?_map]
    congr 1
    funext i
    cases i <;> rfl
  rw [info, info, hdirective, hdirective]

/-- The bodies to lower are the same, spelled out. -/
theorem toLower_spelled : List.Forall₂ (SameBody fun b b' ↦ b' = b.spelled) (l.toLower p items)
    (l.toLower p (items.map Item.spelled)) := by
  have hp : p.Moved l.depth (fun a b ↦ a = b) p := .of_place fun _ _ _ ↦ rfl
  refine forall₂_toLower ⟨rfl, rfl⟩ hp ?_
  rw [List.forall₂_map_right_iff, List.forall₂_same]
  intro i _
  cases i with
  | directive d path span => exact ⟨d, path, span, rfl⟩
  | global name span => exact ⟨span, rfl⟩
  | define d => exact ⟨d, rfl, rfl, rfl, rfl⟩
  | callable d => exact ⟨d.spelled, rfl, rfl, rfl, rfl, rfl⟩

/-! ## Lowering the bodies -/

/-- All places of the body of a callable see the same definitions, and none of these has the name of
a global or of a parameter. -/
structure Clears (l : Layer) (p : Program) (owner : Owner) (body : Block) : Prop where
  /-- A definition is seen from all of the body or from none of it. -/
  level : ∀ name, ∀ r ∈ body.spans, ∀ r' ∈ body.spans,
    p.define? l.depth name r.start = p.define? l.depth name r'.start
  /-- A name of the body is hidden by no definition. -/
  free : ∀ name ∈ p.bodyNames owner, ∀ r ∈ body.spans, p.define? l.depth name r.start = none

theorem Clears.of_sameNames {owner : Owner} {body : Block} (h : l.Clears p owner body)
    (hq : p.SameNames q) : l.Clears q owner body := by
  have hdefine : ∀ name offset, q.define? l.depth name offset = p.define? l.depth name offset := by
    intro name offset
    rw [Program.define?, Program.define?, hq.defines]
  refine ⟨fun name r hr r' hr' ↦ ?_, fun name hname r hr ↦ ?_⟩
  · rw [hdefine, hdefine]
    exact h.level name r hr r' hr'
  · rw [hdefine]
    rw [hq.bodyNames] at hname
    exact h.free name hname r hr

theorem lowerBody_spelled {owner : Owner} {body : Block} (hpos : 0 < l.depth)
    (hle : l.depth ≤ p.pools.size) (h : l.Clears p owner body) :
    lowerBody l owner body.spelled p = lowerBody l owner body p := by
  have hnames : (Env.body l owner p).names ⟨p.addRoot (.root l.depth owner), .root l.depth owner⟩
      = p.bodyNames owner := by
    show (p.globalIdents ++ _ ++ [] ++ []).map _ = _
    rw [List.append_nil, List.append_nil]
    rfl
  have hclears : (Env.body l owner p).Clears body.spans
      ⟨p.addRoot (.root l.depth owner), .root l.depth owner⟩ :=
    ⟨Env.body_fits hpos hle owner, h.level, fun name hname ↦ h.free name (hnames ▸ hname)⟩
  have hstmts : stmtSpans body.stmts ⊆ body.spans := by
    cases body
    exact List.subset_cons_self _ _
  rw [lowerBody_apply, lowerBody_apply, body.stmts_spelled, lower_spelled _ hclears hstmts]

theorem lowerAll_spelled {bs bs' : List (Owner × Block)} (hpos : 0 < l.depth)
    (hle : l.depth ≤ p.pools.size) (h : List.Forall₂ (SameBody fun b b' ↦ b' = b.spelled) bs bs')
    (hclears : ∀ owner body, (owner, body) ∈ bs → l.Clears p owner body) :
    l.lowerAll bs' p = l.lowerAll bs p := by
  induction h generalizing p with
  | nil => rfl
  | @cons x y bs bs' hxy _ ih =>
    obtain ⟨owner, body⟩ := x
    obtain ⟨owner', body'⟩ := y
    obtain ⟨rfl, rfl⟩ : owner = owner' ∧ body' = body.spelled := hxy
    rw [lowerAll, lowerAll]
    refine bind_congr_of_ok
      (lowerBody_spelled hpos hle (hclears _ _ List.mem_cons_self)) fun id t ht ↦ ?_
    obtain ⟨hnames, hpools⟩ := sameNames_lowerBody ht
    rw [modify_bind, modify_bind]
    exact ih (hpools ▸ hle) fun other b hb ↦
      (hclears other b (List.mem_cons_of_mem _ hb)).of_sameNames hnames

/-- A layer compiles to the same, spelled out, if its bodies are lowered among fitting
definitions. -/
theorem compile_spelled (hpos : 0 < l.depth)
    (h : ∀ {declared defines}, l.declareAll items p = .ok () declared →
      Expansion.expandAll declared.defines = .ok () defines →
      l.depth ≤ (l.expanded items declared defines).pools.size ∧
      ∀ owner body, (owner, body) ∈ l.toLower (l.expanded items declared defines) items →
        l.Clears (l.expanded items declared defines) owner body) :
    l.compile (items.map Item.spelled) p = l.compile items p := by
  rw [compile_eq, compile_eq, declareAll_spelled, info_spelled]
  refine bind_congr_of_ok rfl fun _ declared hdeclared ↦ ?_
  rw [modify_bind, modify_bind, get_bind, get_bind]
  by_cases hmain : declared.main.isNone
  · rw [if_pos hmain, if_pos hmain]
    rfl
  · rw [if_neg hmain, if_neg hmain]
    refine bind_congr_of_ok rfl fun _ next hnext ↦ ?_
    rw [onDefines] at hnext
    dsimp only at hnext
    split at hnext
    next defines hdefines =>
      cases hnext
      obtain ⟨hle, hclears⟩ := h hdeclared hdefines
      exact lowerAll_spelled hpos hle toLower_spelled hclears
    next => contradiction

/-! ## What bodies see

What a body sees is decided by the offsets of definitions and of the body. A body stands behind
the head of its callable, so whatever stands in front of the head is seen from all of it, and what
stands behind the body is seen from none of it. -/

/-- A definition with the name of a parameter stands behind the callable. -/
theorem behind_of_param {before later : List Item} {d : CallableDecl}
    (h : l.declareAll (before ++ .callable d :: later) p = .ok () q) {name : String}
    (hname : name ∈ d.paramNames) {e : Define} (he : q.defines.get? name = some e) :
    ∃ d, .define d ∈ later ∧ e.depth = l.depth ∧ e.offset = d.span.start := by
  obtain ⟨t, -, hlater⟩ := declareAll_split h
  obtain ⟨⟨⟩, t₁, hitem, -⟩ := bind_eq_ok.1 hlater
  obtain ⟨c, -, -, hparams⟩ := (declareItem_declared hitem).params
  obtain ⟨-, -, hfree⟩ := newParams_eq_ok hparams List.nodup_nil
  obtain ⟨param, hparam, rfl⟩ := List.mem_map.1 hname
  -- the parameter was compared with what is in front of the callable
  have hnone : param.name ∉ t.namesOf .define :=
    Program.declared?_eq_none_iff.1 (hfree param hparam) .define nofun
  obtain hold | ⟨d, hd, -, hplace⟩ := defines_declareAll_cases hlater he
  · exact absurd (Table.mem_names_iff.2 ⟨e, hold⟩) hnone
  · exact ⟨d, (List.mem_cons.1 hd).resolve_left nofun, hplace⟩

end Layer

/-! ## Sessions -/

namespace Session

section

variable {s : Session} {source : String} {ps : List ItemPhrase} {i : ItemPhrase} {d : CallableDecl}
  {declared : Program} {defines : Table Define}

/-- All places of a body see the same definitions. -/
theorem Reachable.level (hs : s.Reachable) (hps : WrittenAs source ps)
    (hdeclared : (s.nextLayer source).declareAll (ps.map (ItemPhrase.tree source))
      (deepen s.program) = .ok () declared)
    (hdefines : Expansion.expandAll declared.defines = .ok () defines) (hi : i ∈ ps)
    (htree : i.tree source = .callable d) (name : String) {r r' : Span} (hr : r ∈ d.body.spans)
    (hr' : r' ∈ d.body.spans) :
    (defines.get? name).filter (·.visibleFrom (s.nextLayer source).depth r.start)
      = (defines.get? name).filter (·.visibleFrom (s.nextLayer source).depth r'.start) := by
  obtain ⟨-, -, hgives⟩ := Layer.gives_expanded hs.sound rfl
    (fun _ hd ↦ (readsAs_iff.2 ⟨ps, hps, rfl⟩).ordered.isWord hd) hdeclared hdefines
  have hitem : i.isDefine = false := by
    cases i with
    | define => cases htree
    | directive | global | callable => rfl
  cases hget : defines.get? name with
  | none => rfl
  | some e =>
    have hvisible := hps.visibleFrom_eq hi hitem (hgives.defines name e hget)
      (ItemPhrase.edged_body htree r hr) (ItemPhrase.edged_body htree r' hr')
    rw [Option.filter_some, Option.filter_some, hvisible]

/-- A body sees no definition with the name of a global or of a parameter. -/
theorem Reachable.free (hs : s.Reachable) (hps : WrittenAs source ps)
    (hdeclared : (s.nextLayer source).declareAll (ps.map (ItemPhrase.tree source))
      (deepen s.program) = .ok () declared)
    (hi : i ∈ ps) (htree : i.tree source = .callable d) {name : String}
    (hname : name ∈ declared.bodyNames d.owner) {e : Define}
    (he : declared.defines.get? name = some e)
    {r : Span} (hr : r ∈ d.body.spans) :
    e.visibleFrom (s.nextLayer source).depth r.start = false := by
  obtain ⟨pre, post, rfl⟩ := List.append_of_mem hi
  rw [List.map_append, List.map_cons, htree] at hdeclared
  have hnamed := (Layer.named_declareAll hs.named.deepen rfl hdeclared).1
  obtain ⟨-, ⟨c, hc, hparams⟩, -⟩ := Layer.paramNames_declareAll hs.named.deepen rfl hdeclared
  rw [hnamed.bodyNames hc, hparams, List.mem_append] at hname
  obtain hglobal | hparam := hname
  -- a global is nothing else
  · have hstart : (deepen s.program).NamesApart s.vocabulary :=
      ⟨hs.namesApart.kind_unique, hs.namesApart.main_not_function, hs.namesApart.not_reserved⟩
    have hapart : declared.NamesApart s.vocabulary := Layer.namesApart_declareAll hstart hdeclared
    have hglobal' : name ∈ declared.namesOf .global := hglobal
    have hdefine : name ∈ declared.namesOf .define := Table.mem_names_iff.2 ⟨e, he⟩
    exact absurd (hapart.kind_unique hglobal' hdefine) (by decide)
  · obtain ⟨d', hd', hdepth, hoffset⟩ := Layer.behind_of_param hdeclared hparam he
    obtain ⟨j, hj, htree'⟩ := List.mem_map.1 hd'
    obtain ⟨m, hm, hstart⟩ := (ItemPhrase.edged_body htree r hr).start
    obtain ⟨n, hn, hstart'⟩ := (ItemPhrase.edged_define htree').2.start
    have hlt := hps.start_lt hj hm hn
    rw [hstart, hstart'] at hlt
    rw [Define.visibleFrom, hdepth, hoffset, decide_eq_false (lt_irrefl _),
      decide_eq_false (Nat.not_lt.2 hlt.le), Bool.and_false]
    rfl

/-- All bodies that a session is given are lowered among fitting definitions. -/
theorem Reachable.clears (hs : s.Reachable) (hps : WrittenAs source ps)
    (hdeclared : (s.nextLayer source).declareAll (ps.map (ItemPhrase.tree source))
      (deepen s.program) = .ok () declared)
    (hdefines : Expansion.expandAll declared.defines = .ok () defines) (hi : i ∈ ps)
    (htree : i.tree source = .callable d) :
    (s.nextLayer source).Clears
      ((s.nextLayer source).expanded (ps.map (ItemPhrase.tree source)) declared defines) d.owner
      d.body := by
  refine ⟨fun name r hr r' hr' ↦ hs.level hps hdeclared hdefines hi htree name hr hr',
    fun name hname r hr ↦ ?_⟩
  rw [Program.define?, Option.filter_eq_none_iff]
  intro e he
  have htexts := after_of_ok hdefines ▸ Expansion.sameTexts_expandAll declared.defines
  obtain ⟨old, hold, hreset⟩ := htexts.get? he
  have hvisible := hs.free hps hdeclared hi htree hname hold hr
  have hdepth : old.depth = e.depth := (congrArg Define.depth hreset :)
  have hoffset : old.offset = e.offset := (congrArg Define.offset hreset :)
  rw [Define.visibleFrom, hdepth, hoffset] at hvisible
  rw [Define.visibleFrom, hvisible]
  exact Bool.false_ne_true

end

/-- A text compiles the same with every compound assignment in it spelled out. -/
theorem Reachable.compile_spelled {s : Session} (hs : s.Reachable) {source : String}
    {items : List Item} (hitems : ReadsAs source items) :
    (s.nextLayer source).compile (items.map Item.spelled) (deepen s.program)
      = (s.nextLayer source).compile items (deepen s.program) := by
  refine Layer.compile_spelled (Nat.succ_pos _) fun {declared defines} hdeclared hdefines ↦ ?_
  obtain ⟨hsound, hdepth, hgives⟩ := Layer.gives_expanded hs.sound rfl
    (fun _ hd ↦ hitems.ordered.isWord hd) hdeclared hdefines
  refine ⟨(hsound.pools.trans hdepth).ge, fun owner body hbody ↦ ?_⟩
  obtain ⟨d, hd, rfl, rfl⟩ := mem_bodiesOf.1 ((Layer.mem_toLower hsound hgives).1 hbody)
  obtain ⟨ps, hps, rfl⟩ := readsAs_iff.1 hitems
  obtain ⟨i, hi, htree⟩ := List.mem_map.1 hd
  exact hs.clears hps hdeclared hdefines hi htree

end Session

end CharacterScript
