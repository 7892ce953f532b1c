import CharacterScript.Proofs.Relocation.Definitions
import CharacterScript.Proofs.Relocation.Layers
import CharacterScript.Proofs.Rewording.Expanding
import CharacterScript.Proofs.VisibleNames

/-!
# Compiling a layer whose definitions are worded in another way

Two layers that differ in nothing but the texts of their definitions are compiled to the same
program, but for its definitions, if these are expanded to what is lowered to the same
(`Layer.agree_compile_reworded`).

## What may differ

The items of the two layers are the same, with the same places, but for the texts of definitions
(`Item.withText`). So nothing else in the programs differs, and the relation between them is an
equation: the second program is the first with another table of definitions.
-/

namespace CharacterScript

open Expansion Running

/-! ## Items -/

/-- An item with another text, if it is a definition. -/
def Item.withText (text : String) : Item → Item
  | .define d => .define { d with text }
  | i => i

/-- The text of a definition. -/
def Item.text : Item → String
  | .define d => d.text
  | _ => ""

/-- What an item defines, and as which text. -/
def Item.definition? : Item → Option (String × String)
  | .define d => some (d.name, d.text)
  | _ => none

/-- The second item is the first, with another text if it is a definition. -/
def Item.Reworded (i i' : Item) : Prop :=
  ∃ text, i' = i.withText text

/-- The second program is the first with its definitions reworded. -/
structure Program.Reworded (p q : Program) : Prop where
  /-- All but the definitions is the same. -/
  eq : q = p.withDefines q.defines
  /-- The definitions are the same but for their wording. -/
  defines : p.defines.Alike Define.Reworded q.defines

theorem Define.Reworded.refl (d : Define) : d.Reworded d :=
  ⟨rfl, rfl, rfl, by cases d.expansion <;> constructor; exact .refl _⟩

theorem Program.Reworded.refl (p : Program) : p.Reworded p :=
  ⟨rfl, rfl, fun ha hb ↦ by
    cases ha.symm.trans hb
    exact .refl _⟩

namespace Program.Reworded

variable {p q : Program} (h : p.Reworded q)

include h

theorem declared?_eq (name : String) (skip : Option Kind) :
    q.declared? name skip = p.declared? name skip := by
  have hkind : ∀ kind, q.declaredAs? name kind = p.declaredAs? name kind := by
    intro kind
    cases kind with
    | define =>
      obtain ⟨hd, hd'⟩ | ⟨d, d', hd, hd', hreworded⟩ := both_of_rel (h.defines.get? name)
      · rw [declaredAs?, declaredAs?, hd, hd']
      · rw [declaredAs?, declaredAs?, hd, hd', Option.map_some, Option.map_some, hreworded.ident]
    | global | function | script => rw [h.eq]; rfl
  simp only [declared?, hkind]

end Program.Reworded

namespace Layer

variable {l : Layer} {p q : Program}

/-! ## Declaring

No question looks at the text of a definition, so all of them have the same answers, positions
included. -/

section

variable (h : p.Reworded q)

include h

theorem checkName_reworded (name : String) (kind : Program.Kind) (pos : Position)
    (existing : Option (Identifier × Nat)) :
    l.checkName q name kind pos existing = l.checkName p name kind pos existing := by
  unfold checkName
  rw [h.declared?_eq]

theorem newParams_reworded (params : List Param) : ∀ done : List Identifier,
    l.newParams q done params = l.newParams p done params := by
  induction params with
  | nil => exact fun _ ↦ rfl
  | cons param params ih =>
    intro done
    simp only [newParams, h.declared?_eq, ih]

theorem newCallable_reworded (kind : IdentKind) (d : CallableDecl) :
    l.newCallable kind d q = l.newCallable kind d p := by
  rw [newCallable, newCallable, newParams_reworded h]

theorem newGlobal_reworded (name : String) (span : Span) :
    l.newGlobal name span q = l.newGlobal name span p := by
  have hglobals : q.globals = p.globals := by
    rw [h.eq]
    rfl
  simp only [newGlobal, checkName_reworded h, hglobals]

theorem newScript_reworded (d : CallableDecl) : l.newScript d q = l.newScript d p := by
  have hscripts : q.scripts = p.scripts ∧ q.main = p.main := by
    rw [h.eq]
    exact ⟨rfl, rfl⟩
  simp only [newScript, checkName_reworded h, newCallable_reworded h, hscripts]

theorem newFunction_reworded (d : CallableDecl) : l.newFunction d q = l.newFunction d p := by
  have hfunctions : q.functions = p.functions := by
    rw [h.eq]
    rfl
  simp only [newFunction, checkName_reworded h, newCallable_reworded h, hfunctions]

theorem newDefine_reworded (d : DefineDecl) (text : String) :
    l.newDefine { d with text } q = (l.newDefine d p).map fun e ↦ { e with text } := by
  have hexisting : (q.defines.get? d.name).map (fun e ↦ (e.ident, e.depth))
      = (p.defines.get? d.name).map fun e ↦ (e.ident, e.depth) := by
    obtain ⟨he, he'⟩ | ⟨e, e', he, he', hreworded⟩ := both_of_rel (h.defines.get? d.name)
    · rw [he, he']
    · rw [he, he', Option.map_some, Option.map_some, hreworded.ident, hreworded.depth]
  simp only [newDefine, checkName_reworded h, hexisting]
  cases l.checkName p d.name .define (l.pos d.nameSpan)
    ((p.defines.get? d.name).map fun e ↦ (e.ident, e.depth)) <;> rfl

end

theorem matches_inspect_of_eq {α : Type} {R : Program → Program → Prop}
    {look : Program → Except Problem α} (hlook : ∀ {p q}, R p q → look q = look p) :
    Matches R Eq (inspect look) (inspect look) :=
  matches_inspect_of_answers fun h ↦ answers_of_coded (by rw [hlook h])

theorem matches_declareItem_reworded {i i' : Item} (hi : i.Reworded i') :
    Matches Program.Reworded Eq (l.declareItem i) (l.declareItem i') := by
  obtain ⟨text, rfl⟩ := hi
  cases i with
  | directive => exact .pure _
  | global name span =>
    refine .bind (matches_inspect_of_eq fun h ↦ newGlobal_reworded h name span) fun g ↦ ?_
    cases g with
    | none => exact .pure _
    | some g => exact .modify fun p q h ↦ ⟨by rw [h.eq]; rfl, h.defines⟩
  | define d =>
    intro p q h
    have hinspect : Agree Program.Reworded (fun e e' ↦ e' = { e with text } ∧ e.expansion = none)
        (inspect (l.newDefine d) p) (inspect (l.newDefine { d with text }) q) := by
      rw [inspect, inspect, newDefine_reworded h]
      cases hnew : l.newDefine d p with
      | ok e =>
        obtain rfl := newDefine_eq_ok hnew
        exact ⟨⟨rfl, rfl⟩, h⟩
      | error e => exact rfl
    refine hinspect.bind fun e e' p q _ _ he h ↦
      ⟨rfl, by rw [h.eq]; rfl, h.defines.insert d.name ?_⟩
    obtain ⟨rfl, hnone⟩ := he
    exact ⟨rfl, rfl, rfl, by rw [hnone]; exact .none⟩
  | callable d =>
    show Matches _ _ (l.declareItem (.callable d)) (l.declareItem (.callable d))
    rw [declareItem]
    cases d.kind with
    | script =>
      refine .bind (matches_inspect_of_eq fun h ↦ newScript_reworded h d) fun c ↦ ?_
      exact .ite Iff.rfl (.modify fun p q h ↦ ⟨by rw [h.eq]; rfl, h.defines⟩)
        (.modify fun p q h ↦ ⟨by rw [h.eq]; rfl, h.defines⟩)
    | function =>
      exact .bind (matches_inspect_of_eq fun h ↦ newFunction_reworded h d) fun c ↦
        .modify fun p q h ↦ ⟨by rw [h.eq]; rfl, h.defines⟩

theorem matches_declareAll_reworded {items items' : List Item}
    (h : List.Forall₂ Item.Reworded items items') :
    Matches Program.Reworded Eq (l.declareAll items) (l.declareAll items') := by
  induction h with
  | nil => exact .pure _
  | cons hi _ ih => exact .bind (matches_declareItem_reworded hi) fun _ ↦ ih

/-! ## Bodies -/

section

variable {items items' : List Item} (h : List.Forall₂ Item.Reworded items items')

include h

/-- The items give the same bodies. -/
theorem toLower_reworded (hpq : p.Reworded q) : l.toLower q items' = l.toLower p items := by
  have hfold : ∀ {step : Table Block → Item → Table Block},
      (∀ t i text, step t (i.withText text) = step t i) →
      ∀ t, items'.foldl step t = items.foldl step t := by
    intro step hstep
    induction h with
    | nil => exact fun _ ↦ rfl
    | cons hi _ ih =>
      intro t
      obtain ⟨text, rfl⟩ := hi
      rw [List.foldl_cons, List.foldl_cons, hstep]
      exact ih _
  have hsame : ∀ kind, bodies kind items' = bodies kind items := fun kind ↦
    hfold (fun t i text ↦ by cases i <;> rfl) .empty
  rw [toLower, toLower, hsame, hsame, hpq.eq]
  rfl

theorem info_reworded : l.info items' = l.info items := by
  have hdirective : ∀ d, l.directive? d items' = l.directive? d items := by
    intro d
    induction h with
    | nil => rfl
    | @cons i _ _ _ hi _ ih =>
      obtain ⟨text, rfl⟩ := hi
      rw [directive?] at ih
      cases i <;> simp only [directive?, Item.withText, List.findSome?_cons, ih]
  rw [info, info, hdirective, hdirective]

end

/-- A body to lower is that of a callable. -/
theorem exists_of_mem_toLower {items : List Item} {owner : Owner} {body : Block}
    (h : (owner, body) ∈ l.toLower p items) : ∃ d, .callable d ∈ items ∧ d.body = body := by
  have hbody : ∃ kind name, (bodies kind items).get? name = some body := by
    rw [toLower, List.mem_append, List.mem_append, List.mem_map, List.mem_map, List.mem_map] at h
    obtain (⟨⟨name, b⟩, hb, heq⟩ | ⟨⟨name, b⟩, hb, heq⟩) | ⟨b, hb, heq⟩ := h
    · cases heq
      exact ⟨_, name, (mem_current.1 hb).2⟩
    · cases heq
      exact ⟨_, name, (mem_current.1 hb).2⟩
    · cases heq
      exact ⟨_, mainName, Option.mem_toList.1 hb⟩
  obtain ⟨kind, name, hbody⟩ := hbody
  obtain ⟨d, hd, -, -, hd'⟩ := mem_of_bodies_get? hbody
  exact ⟨d, hd, hd'⟩

end Layer

/-- The second program is the first with the definitions `u` instead of `t`. -/
structure Program.Exchanged (t u : Table Define) (p q : Program) : Prop where
  /-- All but the definitions is the same. -/
  eq : q = p.withDefines u
  /-- The first program has the definitions `t`. -/
  defines : p.defines = t

namespace Layer

variable {l : Layer} {p q : Program} {t u : Table Define}

theorem matches_lowerBody_reworded (h : Rewording t u) (owner : Owner) {body : Block}
    (hsame : ∀ text ∈ body.calculations, SameIn t u text) :
    Matches (Program.Exchanged t u) Eq (lowerBody l owner body) (lowerBody l owner body) := by
  intro p q hpq
  obtain rfl := hpq.eq
  have hstart : Work.Exchanged t u ⟨p.addRoot (.root l.depth owner), .root l.depth owner⟩
      ⟨(p.withDefines u).addRoot (.root l.depth owner), .root l.depth owner⟩ := ⟨rfl, hpq.defines⟩
  have henv : Env.body l owner (p.withDefines u) = Env.body l owner p := by
    cases owner <;> rfl
  have hstmts : Matches (Work.Exchanged t u) Eq (lowerStmts (Env.body l owner p) body.stmts)
      (lowerStmts (Env.body l owner (p.withDefines u)) body.stmts) := by
    obtain ⟨stmts, span⟩ := body
    rw [henv]
    exact matches_lowerStmts_reworded h stmts hsame
  refine agree_lowerBody rfl rfl (hstmts _ _ hstart) fun hw ↦ ?_
  obtain rfl := hw.eq
  exact ⟨rfl, rfl, hw.defines⟩

theorem matches_lowerAll_reworded (h : Rewording t u) : ∀ bodies : List (Owner × Block),
    (∀ entry ∈ bodies, ∀ text ∈ entry.2.calculations, SameIn t u text) →
    Matches (Program.Exchanged t u) Eq (l.lowerAll bodies) (l.lowerAll bodies)
  | [], _ => .pure _
  | (owner, body) :: rest, hsame => by
    obtain ⟨hbody, hrest⟩ := List.forall_mem_cons.1 hsame
    refine .bind (matches_lowerBody_reworded h owner hbody) fun id ↦
      .bind (.modify fun p q hpq ↦ ?_) fun _ ↦ matches_lowerAll_reworded h rest hrest
    obtain rfl := hpq.eq
    refine ⟨by cases owner <;> rfl, ?_⟩
    rw [← hpq.defines]
    cases owner <;> rfl

/-! ## The layer -/

section

variable {items items' : List Item} (hitems : List.Forall₂ Item.Reworded items items')

include hitems

/-- The bodies are lowered to the same. -/
theorem agree_lowerAll_reworded (h : Rewording p.defines u)
    (hsame : ∀ d, .callable d ∈ items → ∀ text ∈ d.body.calculations, SameIn p.defines u text) :
    Agree (fun p q ↦ q = p.withDefines q.defines) Eq (l.lowerAll (l.toLower p items) p)
      (l.lowerAll (l.toLower (p.withDefines u) items') (p.withDefines u)) := by
  have hbodies : ∀ entry ∈ l.toLower p items,
      ∀ text ∈ entry.2.calculations, SameIn p.defines u text := by
    rintro ⟨owner, body⟩ hentry
    obtain ⟨d, hd, rfl⟩ := exists_of_mem_toLower hentry
    exact hsame d hd
  have hagree := matches_lowerAll_reworded (l := l) h _ hbodies p (p.withDefines u) ⟨rfl, rfl⟩
  rw [toLower_reworded hitems ⟨rfl, h.alike⟩]
  refine hagree.imp fun hexchanged ↦ ?_
  obtain rfl := hexchanged.eq
  rfl

omit hitems in
/-- The definitions are expanded in programs that are the same but for them. -/
theorem agree_onDefines_reworded (hpq : p.Reworded q)
    (h : Agree (Table.Alike Define.Reworded) Eq (expandAll p.defines) (expandAll q.defines)) :
    Agree (fun p' q' ↦ p'.Reworded q' ∧ expandAll p.defines = .ok () p'.defines ∧
        expandAll q.defines = .ok () q'.defines) Eq
      (onDefines expandAll p) (onDefines expandAll q) := by
  rw [onDefines, onDefines]
  cases ht : expandAll p.defines with
  | error e t =>
    obtain ⟨e', u, hu, hcode⟩ := h.error_of_error ht
    rw [hu]
    exact hcode
  | ok _ t =>
    obtain ⟨_, u, hu, -, halike⟩ := h.ok_of_ok ht
    rw [hu]
    exact ⟨rfl, ⟨by rw [hpq.eq]; rfl, halike⟩, rfl, rfl⟩

/-- A layer compiles to the same with its definitions reworded, but for the definitions. -/
theorem agree_compile_reworded (hpq : p.Reworded q)
    (hexpand : ∀ {declared declared'}, l.declareAll items p = .ok () declared →
      l.declareAll items' q = .ok () declared' → Agree (Table.Alike Define.Reworded) Eq
        (expandAll declared.defines) (expandAll declared'.defines))
    (hlower : ∀ {declared declared' t u}, l.declareAll items p = .ok () declared →
      l.declareAll items' q = .ok () declared' → expandAll declared.defines = .ok () t →
      expandAll declared'.defines = .ok () u → t.Alike Define.Reworded u → Rewording t u ∧
        ∀ d, .callable d ∈ items → ∀ text ∈ d.body.calculations, SameIn t u text) :
    Agree (fun p q ↦ q = p.withDefines q.defines) Eq (l.compile items p) (l.compile items' q) := by
  rw [compile_eq, compile_eq]
  refine (matches_declareAll_reworded hitems p q hpq).bind
    fun _ _ declared declared' hdeclared hdeclared' _ hd ↦ ?_
  rw [modify_bind, modify_bind, get_bind, get_bind, info_reworded hitems]
  have hlayers : Program.Reworded
      { declared with layers := declared.layers.push (l.info items) }
      { declared' with layers := declared'.layers.push (l.info items) } :=
    ⟨by rw [hd.eq]; rfl, hd.defines⟩
  have hmain : declared'.main.isNone = declared.main.isNone := by
    rw [hd.eq]
    rfl
  by_cases hnone : declared.main.isNone
  · rw [if_pos hnone, if_pos (hmain.trans hnone)]
    exact rfl
  · rw [if_neg hnone, if_neg (by rwa [hmain])]
    have hexpanded : Agree (Table.Alike Define.Reworded) Eq (expandAll declared.defines)
        (expandAll declared'.defines) := hexpand hdeclared hdeclared'
    refine (agree_onDefines_reworded hlayers hexpanded).bind fun _ _ next next' _ _ _ hnext ↦ ?_
    obtain ⟨hreworded, ht, hu⟩ := hnext
    obtain ⟨hrewording, hsame⟩ := hlower hdeclared hdeclared' ht hu hreworded.defines
    rw [get_bind, get_bind, hreworded.eq]
    exact agree_lowerAll_reworded hitems hrewording hsame

end

end Layer

/-! ## Texts

The texts of a table come from the layers before and from the items. What the next layer will
expand is known before it is compiled. -/

theorem Expansion.texts_insert (t : Table Define) (name : String) (d : Define) :
    texts (t.insert name d) = Function.update (texts t) name (some d.text) := by
  funext other
  rw [texts, Table.get?_insert, Function.update_apply]
  split
  next => rfl
  next => rfl

namespace Layer

variable {l : Layer} {p q : Program}

/-- The texts of the definitions when the items have been declared. -/
def declaredTexts (items : List Item) (text? : String → Option String) : String → Option String :=
  (items.filterMap Item.definition?).foldl
    (fun text? d ↦ Function.update text? d.1 (some d.2)) text?

theorem texts_declareAll {items : List Item} (h : l.declareAll items p = .ok () q) :
    texts q.defines = declaredTexts items (texts p.defines) := by
  induction items generalizing p with
  | nil =>
    obtain ⟨-, rfl⟩ := pure_eq_ok.1 h
    rfl
  | cons i items ih =>
    obtain ⟨⟨⟩, t, hi, hrest⟩ := bind_eq_ok.1 h
    rw [ih hrest]
    cases declareItem_declared hi with
    | @define d e hnew =>
      obtain rfl := newDefine_eq_ok hnew
      rw [texts_insert]
      rfl
    | directive | seen | global | main | script | function => rfl

/-- The definitions that were declared have words as names. -/
theorem isName_declareAll {items : List Item} (h : l.declareAll items p = .ok () q)
    (hitems : ∀ d, .define d ∈ items → IsName d.name) (hp : ∀ name ∈ p.defines.names, IsName name) :
    ∀ name ∈ q.defines.names, IsName name := by
  intro name hname
  obtain ⟨e, he⟩ := Table.mem_names_iff.1 hname
  obtain hold | ⟨d, hd, rfl, -⟩ := defines_declareAll_cases h he
  · exact hp name (Table.mem_names_iff.2 ⟨e, hold⟩)
  · exact hitems d hd

/-- The definitions can be expanded when the items have been declared. -/
def Expandable (l : Layer) (items : List Item) (p : Program) : Prop :=
  ∃ declared t, l.declareAll items p = .ok () declared ∧ expandAll declared.defines = .ok () t

theorem Expandable.exists_expandAll {items : List Item} (h : l.Expandable items p)
    (hdeclared : l.declareAll items p = .ok () q) : ∃ t, expandAll q.defines = .ok () t := by
  obtain ⟨_, t, hdeclared', ht⟩ := h
  cases hdeclared.symm.trans hdeclared'
  exact ⟨t, ht⟩

/-- Whether definitions can be expanded does not depend on where they stand. -/
theorem Expandable.of_moved {l' : Layer} {place : Offsets} {same : Block → Block → Prop}
    {items items' : List Item} (hl : l.Same l') (hpq : p.Moved l.depth place q)
    (hitems : List.Forall₂ (Item.Moves place same) items items') (h : l'.Expandable items' q) :
    l.Expandable items p := by
  obtain ⟨declared', t', hdeclared', ht'⟩ := h
  have hagree := matches_declareAll_moved hl hitems p q hpq
  obtain ⟨_, declared, hdeclared⟩ := hagree.exists_ok_iff.2 ⟨_, _, hdeclared'⟩
  obtain ⟨_, _, hdeclared'', -, hmoved⟩ := hagree.ok_of_ok hdeclared
  cases hdeclared'.symm.trans hdeclared''
  obtain ⟨_, t, ht⟩ := hmoved.agree_expandAll.exists_ok_iff.2 ⟨_, _, ht'⟩
  exact ⟨declared, t, hdeclared, ht⟩

end Layer

namespace Session

/-- The texts of all definitions when the items have been declared behind what is there. -/
def textsWith (s : Session) (items : List Item) : String → Option String :=
  Layer.declaredTexts items (texts s.program.defines)

/-- A text is compiled to the same if its definitions come to be worded in another way, in which
they are read alike, and in which those that calculations mention have the same expansions. They
have to mention the same definitions, or all of them can be expanded. -/
theorem Reachable.agree_compile_reworded {s : Session} (hs : s.Reachable) {source : String}
    {items items' : List Item} (hitems : ReadsAs source items)
    (hreworded : List.Forall₂ Item.Reworded items items') {same : String → String → Prop}
    (hread : ReadsAlike same)
    (hmention : MentionAlike (s.textsWith items) (s.textsWith items') ∨
      (s.nextLayer source).Expandable items (deepen s.program) ∧
        (s.nextLayer source).Expandable items' (deepen s.program))
    (hexpand : ExpandAlike same (s.textsWith items) (s.textsWith items'))
    (hsame : ∀ d, .callable d ∈ items → ∀ text ∈ d.body.calculations,
      SameExpansions (s.textsWith items) (s.textsWith items') text) :
    Agree (fun p q ↦ q = p.withDefines q.defines) Eq
      ((s.nextLayer source).compile items (deepen s.program))
      ((s.nextLayer source).compile items' (deepen s.program)) := by
  have hnames : ∀ {declared}, (s.nextLayer source).declareAll items (deepen s.program)
      = .ok () declared → ∀ name ∈ declared.defines.names, IsName name := fun hdeclared ↦
    Layer.isName_declareAll hdeclared (fun _ hd ↦ (hitems.isIdentifier_define hd).isName) hs.isName
  have halike : ∀ {declared declared'}, (s.nextLayer source).declareAll items (deepen s.program)
      = .ok () declared → (s.nextLayer source).declareAll items' (deepen s.program)
      = .ok () declared' → declared.Reworded declared' := by
    intro declared declared' hdeclared hdeclared'
    obtain ⟨_, _, hdeclared'', -, h⟩ := (Layer.matches_declareAll_reworded hreworded _ _
      (.refl _)).ok_of_ok hdeclared
    cases hdeclared'.symm.trans hdeclared''
    exact h
  refine Layer.agree_compile_reworded hreworded (.refl _)
    (fun {declared declared'} hdeclared hdeclared' ↦ ?_)
    fun {declared declared' t u} hdeclared hdeclared' ht hu h ↦ ?_
  · refine agree_expandAll_reworded hread ?_ ?_ (halike hdeclared hdeclared').defines
      (hnames hdeclared)
    · refine hmention.imp (fun hmention ↦ ?_) fun hexpandable ↦
        ⟨hexpandable.1.exists_expandAll hdeclared, hexpandable.2.exists_expandAll hdeclared'⟩
      rw [Layer.texts_declareAll hdeclared, Layer.texts_declareAll hdeclared']
      exact hmention
    · rw [Layer.texts_declareAll hdeclared, Layer.texts_declareAll hdeclared']
      exact hexpand
  · obtain ⟨hnamed, -⟩ := Layer.named_declareAll hs.named.deepen rfl hdeclared
    refine ⟨rewording_expandAll (hnames hdeclared) ht hnamed.defines h, fun d hd text htext ↦ ?_⟩
    refine sameIn_expandAll (hnames hdeclared) ht hu (halike hdeclared hdeclared').defines ?_
    rw [Layer.texts_declareAll hdeclared, Layer.texts_declareAll hdeclared']
    exact hsame d hd text htext

end Session

end CharacterScript
