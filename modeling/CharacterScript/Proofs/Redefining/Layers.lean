import CharacterScript.Proofs.Redefining.Expanding
import CharacterScript.Proofs.Redefining.Lowering
import CharacterScript.Proofs.Relocation.Layers
import CharacterScript.Proofs.VisibleNames

/-!
# Compiling a layer with one definition more at its end

A layer is compiled with its items and with one definition more behind them. The items are the
same, so they declare the same. The definition is put into the table in the place of an old one of
its name, or at the end, and the programs differ in nothing else (`Program.Overtaken`).

## Two cases

If the name is new, the layer is compiled to the same program with one entry more
(`Allows.compile_of_new`). If an earlier layer has defined it, the expansions of the others have
to succeed without the old text, and no code may look the name up; where both hold, the layer is
compiled to the same program with the entry exchanged, and otherwise it is refused
(`Allows.compile_of_old`).

## What is asked of the definition

`Allows` collects it: a name that nothing else has and that no text mentions, and a text that
mentions nothing and reads as an expression. With a name that is in the way of something, the
definition itself would be refused, and with a text that cannot be read it would be the expansion
that fails.
-/

namespace CharacterScript

open Running

/-! ## Bodies -/

/-- The second program is the first with the definitions `u` instead of `t`. No global or script has
the name, and if it was a definition, no parameter of the callables has it either. -/
structure Program.Overtaken (owners : List Owner) (name : String) (t u : Table Define)
    (p q : Program) : Prop where
  /-- All but the definitions is the same. -/
  eq : q = p.withDefines u
  /-- The first program has the definitions `t`. -/
  defines : p.defines = t
  /-- No global has the name. -/
  globals : ∀ v ∈ p.globalIdents, v.name ≠ name
  /-- No script has the name. -/
  scripts : p.scriptId? name = none
  /-- If it was a definition, no parameter has the name. -/
  params : t.get? name ≠ none → ∀ owner ∈ owners, ∀ c, p.callable? owner = some c →
    ∀ v ∈ c.params, v.name ≠ name

namespace Layer

variable {l : Layer} {reach : Nat} {name : String} {t u : Table Define} {owners : List Owner}

theorem lowerBody_overtaken (h : Overtaken l.depth reach name t u)
    (hglobal : l.vocabulary.global? name = none) {owner : Owner} (howner : owner ∈ owners)
    {body : Block} (hspans : Before reach body.spans) :
    FollowsUnless (t.get? name ≠ none ∧ name ∈ body.lookups) (Program.Overtaken owners name t u)
      (lowerBody l owner body) (lowerBody l owner body) := by
  intro p q hpq id p' hok
  have hclear : (Env.body l owner p).Clear l name t := by
    refine ⟨rfl, hglobal, fun hgone v hv ↦ ?_⟩
    rw [Env.body, List.append_nil] at hv
    cases hc : p.callable? owner with
    | none =>
      rw [hc] at hv
      cases hv
    | some c =>
      rw [hc] at hv
      exact hpq.params hgone owner howner c hc v hv
  have hstart : Work.Overtaken name t u ⟨p.addRoot (.root l.depth owner), .root l.depth owner⟩
      ⟨q.addRoot (.root l.depth owner), .root l.depth owner⟩ :=
    ⟨by rw [hpq.eq]; rfl, hpq.defines, hpq.globals, hpq.scripts, fun _ v hv ↦
      absurd hv (Array.not_mem_empty v)⟩
  obtain ⟨stmts, span⟩ := body
  have henv : Env.body l owner q = Env.body l owner p := by
    rw [hpq.eq]
    cases owner <;> rfl
  have hsize : q.scopes.size = p.scopes.size := by
    rw [hpq.eq]
    rfl
  obtain ⟨root, new, hafter, -⟩ := after_lowerBody l owner (.mk stmts span) p
  rw [after_of_ok hok] at hafter
  rw [lowerBody_apply] at hok ⊢
  rw [henv, hsize]
  -- both bodies start alike, so it is all up to their statements
  cases hrun : lowerStmts (Env.body l owner p) stmts
      ⟨p.addRoot (.root l.depth owner), .root l.depth owner⟩ with
  | error e w =>
    rw [Block.stmts, hrun] at hok
    cases hok
  | ok _ w =>
    obtain ⟨hfail, hgo⟩ := follows_lowerStmts h stmts hclear (before_cons.1 hspans).2 _ _
      hstart _ _ hrun
    rw [Block.stmts, hrun] at hok
    obtain ⟨rfl, hp'⟩ := EStateM.Result.ok.inj hok
    refine ⟨fun hused ↦ ?_, fun hunused ↦ ?_⟩
    · obtain ⟨e, w', hrun'⟩ := hfail hused
      rw [Block.stmts, hrun']
      exact ⟨e, _, rfl⟩
    · obtain ⟨w', hrun', hw⟩ := hgo hunused
      rw [Block.stmts, hrun']
      refine ⟨_, rfl, ?_, ?_, ?_, ?_, ?_⟩
      · rw [← hp', hw.eq]
        rfl
      · rw [← hp']
        exact hw.defines
      · rw [← hp']
        exact hw.globals
      · rw [← hp']
        exact hw.scripts
      · rw [hafter]
        intro hgone other hother c hc
        exact hpq.params hgone other hother c (by cases other <;> exact hc)

theorem setBody_overtaken (owner : Owner) (id : ScopeId) :
    Matches (Program.Overtaken owners name t u) Eq (modify (·.setBody owner id))
      (modify (·.setBody owner id)) := by
  refine .modify fun p q hpq ↦ ⟨?_, ?_, ?_, ?_, ?_⟩
  · rw [hpq.eq]
    cases owner <;> rfl
  · cases owner <;> exact hpq.defines
  · cases owner <;> exact hpq.globals
  · have hscripts : (p.setBody owner id).scriptId? name = p.scriptId? name := by
      cases owner with
      | script other =>
        show ((setBody p.scripts other id).indexOf? name).map _ = _
        rw [setBody]
        split
        · rw [Table.indexOf?_modifyAt]
          rfl
        · rfl
      | _ => rfl
    rw [hscripts, hpq.scripts]
  · intro hgone other hother c hc
    rw [Program.callable?_setBody] at hc
    split at hc
    · obtain ⟨c, hc', rfl⟩ := Option.map_eq_some_iff.1 hc
      exact hpq.params hgone other hother c hc'
    · exact hpq.params hgone other hother c hc

theorem lowerAll_overtaken (h : Overtaken l.depth reach name t u)
    (hglobal : l.vocabulary.global? name = none) :
    ∀ bodies : List (Owner × Block), (∀ entry ∈ bodies, entry.1 ∈ owners) →
    Before reach (bodies.flatMap (·.2.spans)) →
    FollowsUnless (t.get? name ≠ none ∧ name ∈ bodies.flatMap (·.2.lookups))
      (Program.Overtaken owners name t u) (l.lowerAll bodies) (l.lowerAll bodies)
  | [], _, _ => .of_matches (fun h ↦ nomatch h.2) (.pure _)
  | (owner, body) :: rest, howners, hspans => by
    obtain ⟨howner, hrest⟩ := List.forall_mem_cons.1 howners
    rw [List.flatMap_cons, before_append] at hspans
    rw [lowerAll, List.flatMap_cons]
    exact .bind_append (lowerBody_overtaken h hglobal howner hspans.1) fun id ↦
      .after_matches (setBody_overtaken owner id) fun _ ↦
        lowerAll_overtaken h hglobal rest hrest hspans.2

/-! ## Layers -/

/-- A layer compiles if everything is declared, there is a `main`, and the definitions can be
expanded and the bodies lowered. -/
theorem compile_eq_ok_iff {items : List Item} {p q : Program} : l.compile items p = .ok () q ↔
    ∃ declared t, l.declareAll items p = .ok () declared ∧ declared.main.isNone = false ∧
      Expansion.expandAll declared.defines = .ok () t ∧
      l.lowerAll (l.toLower (l.expanded items declared t) items) (l.expanded items declared t)
        = .ok () q := by
  have hstages : ∀ {declared : Program}, declared.main.isNone = false → ∀ t,
      Expansion.expandAll declared.defines = .ok () t →
      (do
        modify fun p ↦ { p with layers := p.layers.push (l.info items) }
        if (← get).main.isNone then throw .missingMain
        onDefines Expansion.expandAll
        l.lowerAll (l.toLower (← get) items) : EStateM Problem Program Unit) declared
      = l.lowerAll (l.toLower (l.expanded items declared t) items)
          (l.expanded items declared t) := by
    intro declared hmain t ht
    have hexpand : onDefines Expansion.expandAll
        { declared with layers := declared.layers.push (l.info items) }
        = .ok () (l.expanded items declared t) := by
      rw [onDefines, ht]
      rfl
    rw [modify_bind, get_bind, if_neg (by rw [hmain]; exact Bool.false_ne_true)]
    exact bind_of_ok hexpand
  constructor
  · intro h
    obtain ⟨declared, t, hdeclared, ht, hlower⟩ := compile_stages h
    refine ⟨declared, t, hdeclared, ?_, ht, hlower⟩
    rw [compile_eq, bind_of_ok hdeclared, modify_bind, get_bind] at h
    by_contra hmain
    rw [Bool.not_eq_false] at hmain
    rw [if_pos hmain] at h
    cases h
  · rintro ⟨declared, t, hdeclared, hmain, ht, hlower⟩
    rw [compile_eq, bind_of_ok hdeclared, hstages hmain t ht, hlower]

/-- What is put into the table for a definition. -/
def entry (l : Layer) (d : DefineDecl) : Define :=
  ⟨⟨.define, d.name, l.pos d.nameSpan⟩, l.depth, d.span.start, d.text, none⟩

theorem newDefine_of_free {d : DefineDecl} {p : Program}
    (hfree : p.declared? d.name (some .define) = none) (hreserved : l.reservedAs? d.name = none)
    (hold : ∀ e, p.defines.get? d.name = some e → e.depth ≠ l.depth) :
    l.newDefine d p = .ok (l.entry d) := by
  have hcheck : l.checkName p d.name .define (l.pos d.nameSpan)
      ((p.defines.get? d.name).map fun e ↦ (e.ident, e.depth)) = .ok () := by
    simp only [checkName, hfree, hreserved]
    cases he : p.defines.get? d.name with
    | none => rfl
    | some e => exact if_neg (hold e he)
  rw [newDefine, hcheck]
  rfl

theorem declareAll_concat {items : List Item} {i : Item} {p q r : Program}
    (h : l.declareAll items p = .ok () q) (hi : l.declareItem i q = .ok () r) :
    l.declareAll (items ++ [i]) p = .ok () r := by
  induction items generalizing p with
  | nil =>
    obtain ⟨-, rfl⟩ := pure_eq_ok.1 h
    exact bind_of_ok hi
  | cons j items ih =>
    obtain ⟨⟨⟩, t, hj, hrest⟩ := bind_eq_ok.1 h
    exact (bind_of_ok hj).trans (ih hrest)

/-- Items that do not define a name leave alone what it stands for. -/
theorem get?_defines_declareAll {items : List Item} {p q : Program} {name : String}
    (hitems : ∀ e, .define e ∈ items → e.name ≠ name) (h : l.declareAll items p = .ok () q) :
    q.defines.get? name = p.defines.get? name := by
  induction items generalizing p with
  | nil =>
    obtain ⟨-, rfl⟩ := pure_eq_ok.1 h
    rfl
  | cons i items ih =>
    obtain ⟨⟨⟩, t, hi, hrest⟩ := bind_eq_ok.1 h
    rw [ih (fun e he ↦ hitems e (List.mem_cons_of_mem _ he)) hrest]
    cases declareItem_declared hi with
    | define => exact Table.get?_insert_of_ne _ (hitems _ List.mem_cons_self).symm
    | directive | seen | global | main | script | function => rfl

/-- The layer compiles `p` to `q`, and the definition can be put behind its items: it stands behind
all code, no top-level name and no name of the runtime is in its way, no definition mentions it and
it mentions none. -/
structure Allows (l : Layer) (items : List Item) (d : DefineDecl) (p q : Program) : Prop where
  /-- The items are compiled without a problem. -/
  compiled : l.compile items (Session.deepen p) = .ok () q
  /-- The program in front of the layer is sound. -/
  sound : p.Sound
  /-- Its entries have the names they are found under. -/
  named : p.Named
  /-- The layer is the next one. -/
  depth : l.depth = p.depth + 1
  /-- The callables have words for names. -/
  isWord : ∀ c, .callable c ∈ items → IsWord c.name
  /-- The definition and all others have identifiers for names. -/
  isIdentifier : ∀ other ∈ d.name :: q.defines.names, IsIdentifier other
  /-- The layer has no definition of this name. -/
  own : ∀ e, .define e ∈ items → e.name ≠ d.name
  /-- Nothing else is declared under the name. -/
  free : q.declared? d.name (some .define) = none
  /-- The runtime has nothing under the name. -/
  reserved : l.reservedAs? d.name = none
  /-- No definition mentions the name. -/
  silent : ∀ e ∈ q.defines.values, containsWord e.text d.name = false
  /-- All code of the layer stands in front of the definition. -/
  behind : ∀ c, .callable c ∈ items → Before d.span.start c.body.spans
  /-- Its text mentions no name at all. -/
  text : ∀ other, IsIdentifier other → containsWord d.text other = false
  /-- Its text is an expression. -/
  reads : ∀ pos, ∃ x, Expansion.read d.name pos d.text = .ok x

namespace Allows

variable {items : List Item} {d : DefineDecl} {p q declared : Program} {t u : Table Define}

theorem starts (h : l.Allows items d p q) :
    (Session.deepen p).Sound ∧ (Session.deepen p).depth = l.depth :=
  ⟨h.sound.deepen, h.depth.symm⟩

/-- All names are there when the items were declared. -/
theorem namesOf (h : l.Allows items d p q)
    (hdeclared : l.declareAll items (Session.deepen p) = .ok () declared) (kind : Program.Kind) :
      q.namesOf kind = declared.namesOf kind := by
  obtain ⟨declared', r, hdeclared', hnames, -, hsame, -⟩ :=
    compile_runs h.sound h.depth h.isWord h.compiled
  cases hdeclared.symm.trans hdeclared'
  rw [hsame.namesOf, hnames]

theorem declared?_eq_none (h : l.Allows items d p q)
    (hdeclared : l.declareAll items (Session.deepen p) = .ok () declared) :
    declared.declared? d.name (some .define) = none := by
  rw [Program.declared?_eq_none_iff]
  intro kind hkind
  rw [← h.namesOf hdeclared]
  exact Program.declared?_eq_none_iff.1 h.free kind hkind

/-- The definition is declared. -/
theorem declareAll (h : l.Allows items d p q)
    (hdeclared : l.declareAll items (Session.deepen p) = .ok () declared) :
    l.declareAll (items ++ [.define d]) (Session.deepen p)
      = .ok () (declared.withDefines (declared.defines.insert d.name (l.entry d))) := by
  refine declareAll_concat hdeclared ?_
  have hnew : l.newDefine d declared = .ok (l.entry d) := by
    refine newDefine_of_free (h.declared?_eq_none hdeclared) h.reserved fun e he ↦ ?_
    rw [get?_defines_declareAll h.own hdeclared] at he
    have hle := h.sound.defines e (Table.mem_values_iff.2 ⟨_, he⟩)
    rw [h.depth]
    omega
  exact bind_of_ok (inspect_eq_ok.2 ⟨hnew, rfl⟩)

/-- With it, the same bodies are lowered from a program that differs in the definitions. -/
theorem compile_iff (h : l.Allows items d p q)
    (hdeclared : l.declareAll items (Session.deepen p) = .ok () declared)
    (hmain : declared.main.isNone = false) {r : Program} :
    l.compile (items ++ [.define d]) (Session.deepen p) = .ok () r ↔
      ∃ u, Expansion.expandAll (declared.defines.insert d.name (l.entry d)) = .ok () u ∧
        l.lowerAll (l.toLower (l.expanded items declared q.defines) items)
          ((l.expanded items declared q.defines).withDefines u) = .ok () r := by
  have hprogram : ∀ u, l.expanded (items ++ [.define d])
      (declared.withDefines (declared.defines.insert d.name (l.entry d))) u
      = (l.expanded items declared q.defines).withDefines u := by
    intro u
    have hinfo : l.info (items ++ [.define d]) = l.info items := by
      simp [info, directive?, List.findSome?_append]
    rw [expanded, hinfo]
    rfl
  have hbodies : ∀ r : Program, l.toLower r (items ++ [.define d]) = l.toLower r items := by
    intro r
    simp only [toLower, bodies, List.foldl_append]
    rfl
  rw [compile_eq_ok_iff]
  constructor
  · rintro ⟨_, u, hdeclared', -, hexpand, hlower⟩
    cases (h.declareAll hdeclared).symm.trans hdeclared'
    rw [hbodies, hprogram] at hlower
    exact ⟨u, hexpand, hlower⟩
  · rintro ⟨u, hexpand, hlower⟩
    refine ⟨_, u, h.declareAll hdeclared, hmain, hexpand, ?_⟩
    rw [hbodies, hprogram]
    exact hlower

/-- No text that was declared mentions the name. -/
theorem beside (h : l.Allows items d p q)
    (ht : Expansion.expandAll declared.defines = .ok () q.defines) :
    Expansion.Beside d.name declared.defines (declared.defines.insert d.name (l.entry d)) := by
  have htexts := after_of_ok ht ▸ Expansion.sameTexts_expandAll declared.defines
  have hname := (h.isIdentifier d.name List.mem_cons_self).isName
  have hnames : ∀ other ∈ declared.defines.names, IsName other := by
    rw [← htexts.names]
    exact fun other hother ↦ (h.isIdentifier other (List.mem_cons_of_mem _ hother)).isName
  refine ⟨hnames, fun other hother ↦ ?_, fun other hother ↦ Table.get?_insert_of_ne _ hother, ?_⟩
  · obtain hold | rfl := Table.mem_names_insert.1 hother
    · exact hnames other hold
    · exact hname
  · intro other e he
    obtain ⟨i, hi⟩ := Table.get?_eq_some_iff.1 he
    obtain ⟨e', he', htext⟩ := htexts.at? hi
    have hmem := Table.mem_values_iff.2 ⟨other, Table.get?_eq_some_iff.2 ⟨i, he'⟩⟩
    rw [← containsWord_iff hname, ← htext, h.silent e' hmem]
    exact Bool.false_ne_true

theorem overtaken (h : l.Allows items d p q)
    (hdeclared : l.declareAll items (Session.deepen p) = .ok () declared)
    (ht : Expansion.expandAll declared.defines = .ok () q.defines)
    (hu : Expansion.expandAll (declared.defines.insert d.name (l.entry d)) = .ok () u) :
    Overtaken l.depth d.span.start d.name q.defines u := by
  have hbeside := h.beside ht
  have htexts := after_of_ok ht ▸ Expansion.sameTexts_expandAll declared.defines
  have htexts' := after_of_ok hu ▸ Expansion.sameTexts_expandAll _
  obtain ⟨-, hconsistent, -⟩ := Expansion.expanded_expandAll hbeside.isName ht
  have hnamed : declared.Named := (named_declareAll h.named.deepen h.starts.2 hdeclared).1
  -- the table is older than this layer under the name, and the new entry is of this layer
  refine ⟨h.isIdentifier, fun hd ↦ ?_,
    fun other hne ↦ Expansion.get?_expandAll_eq hbeside ht hu hne,
    ?_, fun {e} hd offset ↦ ?_, fun {e} hd offset hoffset ↦ ?_, fun hd he hold hmem ↦ ?_⟩
  · obtain ⟨old, hold, hreset⟩ := htexts.get? hd
    rw [← hnamed.defines hold]
    exact congrArg (·.ident.name) hreset.symm
  · rw [htexts'.names, htexts.names, Table.names_insert]
    split
    · rfl
    · simp
  · obtain ⟨old, hold, hreset⟩ := htexts.get? hd
    rw [get?_defines_declareAll h.own hdeclared] at hold
    have hle := h.sound.defines old (Table.mem_values_iff.2 ⟨_, hold⟩)
    have hdepth : old.depth = e.depth := congrArg (·.depth) hreset
    have hlt := h.depth
    rw [Define.visibleFrom, decide_eq_true (by omega), Bool.true_or]
  · obtain ⟨new, hnew, hreset⟩ := htexts'.get? hd
    cases (Table.get?_insert_self _ _ _).symm.trans hnew
    have hdepth : l.depth = e.depth := congrArg (·.depth) hreset
    have hplace : d.span.start = e.offset := congrArg (·.offset) hreset
    rw [Define.visibleFrom, ← hdepth, ← hplace, decide_eq_false (Nat.lt_irrefl _),
      decide_eq_false (Nat.not_lt.2 hoffset.le), Bool.and_false]
    rfl
  · have hnone := (hconsistent.expands hd he).words hmem
    exact hold (Option.map_eq_none_iff.1 hnone)

/-- The bodies to lower are those of the items. -/
theorem mem_toLower_iff (h : l.Allows items d p q)
    (hdeclared : l.declareAll items (Session.deepen p) = .ok () declared)
    (ht : Expansion.expandAll declared.defines = .ok () t) {owner : Owner} {body : Block} :
    (owner, body) ∈ l.toLower (l.expanded items declared t) items ↔
      ∃ c, .callable c ∈ items ∧ c.owner = owner ∧ c.body = body := by
  obtain ⟨hsound, -, hgives⟩ := gives_expanded h.sound h.depth h.isWord hdeclared ht
  rw [mem_toLower hsound hgives, mem_bodiesOf]

/-- A parameter of a callable of this layer does not have the name of an older definition, because
all of them are looked at when it is declared. -/
theorem params_ne (h : l.Allows items d p q)
    (hdeclared : l.declareAll items (Session.deepen p) = .ok () declared)
    (hold : d.name ∈ declared.namesOf .define) {c : CallableDecl} (hc : .callable c ∈ items)
    {c' : Callable} (hc' : declared.callable? c.owner = some c') :
      ∀ v ∈ c'.params, v.name ≠ d.name := by
  intro v hv hname
  have hown := h.own
  obtain ⟨front, later, rfl⟩ := List.append_of_mem hc
  obtain ⟨-, ⟨c'', hc'', hparams⟩, honly⟩ :=
    paramNames_declareAll h.named.deepen h.starts.2 hdeclared
  cases hc'.symm.trans hc''
  have hparam : d.name ∈ c.paramNames := by
    rw [← hparams, ← hname]
    exact List.mem_map_of_mem hv
  obtain ⟨i, hi, hdeclares⟩ := (honly _ hparam .define).1 hold
  cases i with
  | define e =>
    obtain ⟨hname, -⟩ := Prod.mk.inj (Option.some.inj hdeclares)
    exact hown e (List.mem_append_right _ hi) hname
  | directive | global => cases hdeclares
  | callable c =>
    rw [Item.declares?] at hdeclares
    split at hdeclares
    all_goals cases (Prod.mk.inj (Option.some.inj hdeclares)).2

/-- The programs from which the bodies are lowered. -/
theorem starting (h : l.Allows items d p q)
    (hdeclared : l.declareAll items (Session.deepen p) = .ok () declared)
    (ht : Expansion.expandAll declared.defines = .ok () t) (u : Table Define) :
    Program.Overtaken ((l.toLower (l.expanded items declared t) items).map (·.1)) d.name t u
      (l.expanded items declared t) ((l.expanded items declared t).withDefines u) := by
  have htexts := after_of_ok ht ▸ Expansion.sameTexts_expandAll declared.defines
  have hfree := h.declared?_eq_none hdeclared
  rw [Program.declared?_eq_none_iff] at hfree
  have hnamed : declared.Named := (named_declareAll h.named.deepen h.starts.2 hdeclared).1
  refine ⟨rfl, rfl, fun v hv hname ↦ ?_, ?_, fun hold owner howner c hc ↦ ?_⟩
  · obtain ⟨g, hg, rfl⟩ := List.mem_map.1 hv
    obtain ⟨other, hget⟩ := Table.mem_values_iff.1 hg
    have hother := (hnamed.globals hget).1.symm.trans hname
    exact hfree .global nofun (Table.mem_names_iff.2 ⟨g, hother ▸ hget⟩)
  · have hnone : declared.scripts.indexOf? d.name = none := by
      rw [← Table.get?_eq_none_iff, Option.eq_none_iff_forall_ne_some]
      exact fun c hc ↦ hfree .script nofun (List.mem_append_left _ (Table.mem_names_iff.2 ⟨c, hc⟩))
    show (declared.scripts.indexOf? d.name).map _ = none
    rw [hnone]
    rfl
  · obtain ⟨⟨_, body⟩, hbody, rfl⟩ := List.mem_map.1 howner
    obtain ⟨callable, hcallable, rfl, -⟩ := (h.mem_toLower_iff hdeclared ht).1 hbody
    obtain ⟨e, he⟩ := Option.ne_none_iff_exists'.1 hold
    have hdefined : d.name ∈ declared.defines.names := by
      rw [← htexts.names]
      exact Table.mem_names_iff.2 ⟨e, he⟩
    refine h.params_ne hdeclared hdefined hcallable (hc ▸ ?_)
    cases callable.owner <;> rfl

/-- How lowering the bodies goes on with the definition: as before, but if the name stood for
something and a body looks it up, it fails. -/
theorem lowers (h : l.Allows items d p q)
    (hdeclared : l.declareAll items (Session.deepen p) = .ok () declared)
    (ht : Expansion.expandAll declared.defines = .ok () q.defines)
    (hlower : l.lowerAll (l.toLower (l.expanded items declared q.defines) items)
      (l.expanded items declared q.defines) = .ok () q)
    (hu : Expansion.expandAll (declared.defines.insert d.name (l.entry d)) = .ok () u) {used : Prop}
    (hused : used ↔ q.defines.get? d.name ≠ none ∧ ∃ c, .callable c ∈ items ∧
    d.name ∈ c.body.lookups)
    {run : EStateM.Result Problem Program Unit}
    (hrun : l.lowerAll (l.toLower (l.expanded items declared q.defines) items)
      ((l.expanded items declared q.defines).withDefines u) = run) :
    (used → ∃ e r, run = .error e r) ∧ (¬used → run = .ok () (q.withDefines u)) := by
  have hglobal : l.vocabulary.global? d.name = none := by
    have hreserved := h.reserved
    rw [reservedAs?] at hreserved
    split at hreserved
    · cases hreserved
    · split at hreserved
      · cases hreserved
      next hnone => exact Option.not_isSome_iff_eq_none.1 hnone
  have hmem : ∀ {entry}, entry ∈ l.toLower (l.expanded items declared q.defines) items →
      ∃ c, .callable c ∈ items ∧ c.owner = entry.1 ∧ c.body = entry.2 :=
    (h.mem_toLower_iff hdeclared ht).1
  have hfollows := lowerAll_overtaken (h.overtaken hdeclared ht hu) hglobal
    (l.toLower (l.expanded items declared q.defines) items)
    (fun entry hentry ↦ List.mem_map_of_mem hentry) fun r hr ↦ by
      obtain ⟨entry, hentry, hr⟩ := List.mem_flatMap.1 hr
      obtain ⟨c, hc, -, hbody⟩ := hmem hentry
      exact h.behind c hc r (hbody ▸ hr)
  -- every callable of the layer is lowered, and nothing else is
  have hlookups : used ↔ q.defines.get? d.name ≠ none ∧
      d.name ∈ (l.toLower (l.expanded items declared q.defines) items).flatMap (·.2.lookups) := by
    rw [hused, List.mem_flatMap]
    refine and_congr_right fun _ ↦ ⟨?_, ?_⟩
    · rintro ⟨c, hc, hname⟩
      exact ⟨(c.owner, c.body), (h.mem_toLower_iff hdeclared ht).2 ⟨c, hc, rfl, rfl⟩, hname⟩
    · rintro ⟨entry, hentry, hname⟩
      obtain ⟨c, hc, -, hbody⟩ := hmem hentry
      exact ⟨c, hc, hbody ▸ hname⟩
  obtain ⟨hfail, hgo⟩ := hfollows _ _ (h.starting hdeclared ht u) _ _ hlower
  rw [← hlookups, hrun] at hfail hgo
  refine ⟨hfail, fun hunused ↦ ?_⟩
  obtain ⟨r, hr, hover⟩ := hgo hunused
  rw [hr, hover.eq]

/-- What an accepted layer went through. -/
theorem exists_stages (h : l.Allows items d p q) : ∃ declared : Program,
    l.declareAll items (Session.deepen p) = .ok () declared ∧ declared.main.isNone = false ∧
      Expansion.expandAll declared.defines = .ok () q.defines ∧
      l.lowerAll (l.toLower (l.expanded items declared q.defines) items)
        (l.expanded items declared q.defines) = .ok () q := by
  obtain ⟨declared, t, hdeclared, hmain, ht, hlower⟩ := compile_eq_ok_iff.1 h.compiled
  obtain rfl : q.defines = t := defines_lowerAll hlower
  exact ⟨declared, hdeclared, hmain, ht, hlower⟩

/-- If the layer compiles with the definition, only the definitions are other ones. -/
theorem eq_withDefines (h : l.Allows items d p q) {r : Program}
    (hr : l.compile (items ++ [.define d]) (Session.deepen p) = .ok () r) :
    ∃ u, r = q.withDefines u := by
  obtain ⟨declared, hdeclared, hmain, ht, hlower⟩ := h.exists_stages
  obtain ⟨u, hu, hrun⟩ := (h.compile_iff hdeclared hmain).1 hr
  obtain ⟨hfail, hgo⟩ := h.lowers hdeclared ht hlower hu Iff.rfl hrun
  refine ⟨u, (EStateM.Result.ok.inj (hgo fun hused ↦ ?_)).2⟩
  obtain ⟨_, _, herror⟩ := hfail hused
  cases herror

/-- With a definition of a new name the layer compiles. -/
theorem compile_of_new (h : l.Allows items d p q) (hnew : q.defines.get? d.name = none) :
    ∃ r, l.compile (items ++ [.define d]) (Session.deepen p) = .ok () r := by
  obtain ⟨declared, hdeclared, hmain, ht, hlower⟩ := h.exists_stages
  have hbeside := h.beside ht
  have htexts := after_of_ok ht ▸ Expansion.sameTexts_expandAll declared.defines
  have hdefine : declared.defines.get? d.name = none := by
    rw [Option.eq_none_iff_forall_ne_some]
    intro e he
    obtain ⟨e', he'⟩ := Table.mem_names_iff.1 (htexts.names ▸ Table.mem_names_iff.2 ⟨e, he⟩)
    cases hnew.symm.trans he'
  obtain ⟨x, hx⟩ := h.reads (l.entry d).ident.pos
  obtain ⟨u, hu⟩ := Expansion.exists_expandAll hbeside.isName
    (h.isIdentifier d.name List.mem_cons_self).isName hdefine hbeside.silent (e := l.entry d)
    (fun other hother ↦ h.text other (h.isIdentifier other (htexts.names ▸ hother))) hx ht
  refine ⟨q.withDefines u, (h.compile_iff hdeclared hmain).2 ⟨u, hu, ?_⟩⟩
  exact (h.lowers hdeclared ht hlower hu Iff.rfl rfl).2 fun hused ↦ hused.1 hnew

/-- With a definition of a name that stands for something, the layer compiles exactly if no body
looks the name up, and the definitions can still be expanded. -/
theorem compile_of_old (h : l.Allows items d p q) {old : Define}
    (hold : q.defines.get? d.name = some old) :
    (∃ r, l.compile (items ++ [.define d]) (Session.deepen p) = .ok () r) ↔
      (∀ c, .callable c ∈ items → d.name ∉ c.body.lookups) ∧
        ∃ u, Expansion.expandAll (q.defines.insert d.name { old with text := d.text }) =
          .ok () u := by
  obtain ⟨declared, hdeclared, hmain, ht, hlower⟩ := h.exists_stages
  have hused : (∃ c, .callable c ∈ items ∧ d.name ∈ c.body.lookups) ↔
      q.defines.get? d.name ≠ none ∧ ∃ c, .callable c ∈ items ∧ d.name ∈ c.body.lookups := by
    rw [hold]
    exact (and_iff_right nofun).symm
  have hexpand : (∃ u, Expansion.expandAll (declared.defines.insert d.name (l.entry d)) =
      .ok () u) ↔
      ∃ u, Expansion.expandAll (q.defines.insert d.name { old with text := d.text }) =
        .ok () u := by
    have htexts := after_of_ok ht ▸ Expansion.sameTexts_expandAll declared.defines
    -- the table holds the same texts before and after it is expanded, and only these count
    have halike : declared.defines.Alike (fun e f ↦ f.text = e.text) q.defines := by
      refine ⟨htexts.names.symm, fun he hf ↦ ?_⟩
      obtain ⟨f, hf', htext⟩ := htexts.at? he
      cases hf.symm.trans hf'
      exact htext
    have hinsert := halike.insert (a := l.entry d) (b := { old with text := d.text }) d.name rfl
    have hreset := hinsert.map (f := Define.reset) (g := Define.reset)
      (S := fun e f ↦ f.text = e.text ∧ f.expansion = e.expansion) fun _ _ h ↦ ⟨h, rfl⟩
    have hagree := Expansion.agree_expandAll_of_reset
      (Expansion.indistinct_alike id fun _ h ↦ ⟨h.1, rfl⟩) hreset
    exact Unique.exists_iff.symm.trans (hagree.exists_ok_iff.trans Unique.exists_iff)
  rw [← hexpand]
  constructor
  · rintro ⟨r, hr⟩
    obtain ⟨u, hu, hrun⟩ := (h.compile_iff hdeclared hmain).1 hr
    refine ⟨fun c hc hname ↦ ?_, u, hu⟩
    obtain ⟨_, _, herror⟩ := (h.lowers hdeclared ht hlower hu hused hrun).1 ⟨c, hc, hname⟩
    cases herror
  · rintro ⟨hunused, u, hu⟩
    refine ⟨q.withDefines u, (h.compile_iff hdeclared hmain).2 ⟨u, hu, ?_⟩⟩
    exact (h.lowers hdeclared ht hlower hu hused rfl).2 fun ⟨c, hc, hname⟩ ↦ hunused c hc hname

end Allows

end Layer

end CharacterScript
