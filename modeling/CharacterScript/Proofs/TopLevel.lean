import CharacterScript.Proofs.Steps

/-!
# Names of the top level

A name means one thing at the top level of a program: it is a global, a function, a script or a
definition, and it is none of the words of the runtime. Each item is checked when it is declared,
against what has been declared by then. That is enough, because a check asks about all kinds but the
one of the item, and an item puts in no name but its own: `Layer.Declared.mem_namesOf` says both.
`Program.NamesApart` then follows for every program a session reaches, wherever its layers stopped.

## What may come again

The check of an item leaves out its own kind, because a later layer may declare it again: then the
name is there already and stays of that kind. So the set of names of a kind grows by the name of
the item or by nothing, and names of different kinds have never anything in common.

`main` is a script, and is kept apart from the table of scripts. That no function has its name is
checked by itself.
-/

namespace CharacterScript

open Running

/-! ## What is declared -/

namespace Program

/-- The names that are declared as a kind. `main` is a script, though its table does not have it. -/
def namesOf (p : Program) : Kind → List String
  | .global => p.globals.names
  | .function => p.functions.names
  | .script => p.scripts.names ++ p.main.toList.map (·.ident.name)
  | .define => p.defines.names

variable {p q : Program} {name : String}

theorem declaredAs?_eq_none_iff {kind : Kind} :
    p.declaredAs? name kind = none ↔ name ∉ p.namesOf kind := by
  cases kind with
  | global | function | define =>
    rw [declaredAs?, Option.map_eq_none_iff, namesOf, Table.mem_names_iff,
      ← Option.ne_none_iff_exists', not_not]
  | script =>
    rw [declaredAs?, Option.map_eq_none_iff, Option.or_eq_none_iff, namesOf, List.mem_append,
      not_or, Table.mem_names_iff, ← Option.ne_none_iff_exists', not_not, mainNamed?]
    cases p.main with
    | none => simp
    | some c =>
      by_cases hname : c.ident.name = name
      · simp [hname]
      · simp [hname, Ne.symm hname]

theorem declared?_eq_none_iff {skip : Option Kind} :
    p.declared? name skip = none ↔ ∀ kind, some kind ≠ skip → name ∉ p.namesOf kind := by
  simp only [declared?, List.findSome?_eq_none_iff, ite_eq_left_iff, declaredAs?_eq_none_iff]
  refine ⟨fun h kind ↦ h kind ?_, fun h kind _ ↦ h kind⟩
  cases kind <;> decide

/-- Bodies have nothing to do with names. -/
theorem SameNames.namesOf (h : p.SameNames q) (kind : Kind) : q.namesOf kind = p.namesOf kind := by
  have hbare : ∀ {t u : Table Callable}, u.map Callable.bare = t.map Callable.bare →
      u.names = t.names := fun heq ↦ by
    have hnames := congrArg Table.names heq
    rwa [Table.names_map, Table.names_map] at hnames
  cases kind with
  | global => rw [Program.namesOf, Program.namesOf, h.globals]
  | function => exact hbare h.functions
  | define => rw [Program.namesOf, Program.namesOf, h.defines]
  | script =>
    have hmain := congrArg (fun c ↦ c.toList.map (·.ident.name)) h.main
    simp only [Option.toList_map, List.map_map] at hmain
    rw [Program.namesOf, Program.namesOf, hbare h.scripts]
    exact congrArg _ hmain

/-- Neither have expansions. -/
theorem namesOf_of_sameTexts {layers : Array LayerInfo} {defines : Table Define}
    (h : Expansion.SameTexts p.defines defines) (kind : Kind) :
    ({ p with layers, defines } : Program).namesOf kind = p.namesOf kind := by
  have hnames := congrArg Table.names h
  rw [Table.names_map, Table.names_map] at hnames
  cases kind with
  | define => exact hnames
  | global | function | script => rfl

end Program

/-- The name that an item declares, and as what. -/
def Item.declares? : Item → Option (String × Program.Kind)
  | .directive .. => none
  | .global name _ => some (name, .global)
  | .define d => some (d.name, .define)
  | .callable d =>
    match d.kind with
    | .script => some (d.name, .script)
    | .function => some (d.name, .function)

/-! ## Declaring

A question that was answered with an entry has made sure that the name was free for that kind. -/

namespace Layer

variable {l : Layer} {p q : Program} {i : Item} {name : String} {kind : Program.Kind}

/-- Neither another kind nor the runtime has the name. -/
def Admits (l : Layer) (p : Program) (name : String) (kind : Program.Kind) : Prop :=
  p.declared? name (some kind) = none ∧ l.reservedAs? name = none

theorem reservedAs?_eq_none_iff :
    l.reservedAs? name = none ↔
      l.vocabulary.command? name = none ∧ l.vocabulary.global? name = none := by
  rw [reservedAs?]
  cases l.vocabulary.command? name <;> cases l.vocabulary.global? name <;> simp

theorem checkName_admits {pos : Position} {existing : Option (Identifier × Nat)}
    (h : l.checkName p name kind pos existing = .ok ()) : l.Admits p name kind := by
  rw [checkName.eq_def] at h
  split at h
  · contradiction
  next hfree =>
    split at h
    · contradiction
    next hreserved => exact ⟨hfree, hreserved⟩

private theorem newGlobal_admits {span : Span} {g : Option GlobalVar}
    (h : l.newGlobal name span p = .ok g) : l.Admits p name .global := by
  obtain ⟨⟨⟩, hcheck, -⟩ := exceptBind_eq_ok.1 h
  exact checkName_admits hcheck

private theorem newDefine_admits {d : DefineDecl} {e : Define} (h : l.newDefine d p = .ok e) :
    l.Admits p d.name .define := by
  obtain ⟨⟨⟩, hcheck, -⟩ := exceptBind_eq_ok.1 h
  exact checkName_admits hcheck

private theorem newScript_admits {d : CallableDecl} {c : Callable} (h : l.newScript d p = .ok c) :
    l.Admits p d.name .script := by
  obtain ⟨⟨⟩, hcheck, -⟩ := exceptBind_eq_ok.1 h
  exact checkName_admits hcheck

private theorem newFunction_admits {d : CallableDecl} {c : Callable}
    (h : l.newFunction d p = .ok c) : d.name ≠ mainName ∧ l.Admits p d.name .function := by
  rw [newFunction] at h
  dsimp only at h
  split at h
  · contradiction
  next hname =>
    obtain ⟨⟨⟩, hcheck, -⟩ := exceptBind_eq_ok.1 h
    exact ⟨fun heq ↦ hname (beq_iff_eq.2 heq), checkName_admits hcheck⟩

/-- A name that is there after an item was declared was there before, or it is the one that the item
declares and was looked for among all others. -/
theorem Declared.mem_namesOf (h : l.Declared p i q) (hname : name ∈ q.namesOf kind) :
    name ∈ p.namesOf kind ∨ i.declares? = some (name, kind) ∧ l.Admits p name kind := by
  cases h with
  | directive | seen => exact .inl hname
  | global hnew =>
    cases kind with
    | global =>
      rcases Table.mem_names_insert.1 hname with hold | rfl
      · exact .inl hold
      · exact .inr ⟨rfl, newGlobal_admits hnew⟩
    | function | script | define => exact .inl hname
  | define hnew =>
    cases kind with
    | define =>
      rcases Table.mem_names_insert.1 hname with hold | rfl
      · exact .inl hold
      · exact .inr ⟨rfl, newDefine_admits hnew⟩
    | global | function | script => exact .inl hname
  -- `main` has a place of its own, but its name counts among those of the scripts
  | @main d c hkind _ hnew =>
    cases kind with
    | script =>
      rcases List.mem_append.1 hname with hold | hmain
      · exact .inl (List.mem_append_left _ hold)
      · obtain rfl : name = d.name := by
          rw [← (newScript_new hnew).1.name]
          exact List.mem_singleton.1 hmain
        exact .inr ⟨by rw [Item.declares?, hkind], newScript_admits hnew⟩
    | global | function | define => exact .inl hname
  | script hkind _ hnew =>
    cases kind with
    | script =>
      rcases List.mem_append.1 hname with hscript | hmain
      · rcases Table.mem_names_insert.1 hscript with hold | rfl
        · exact .inl (List.mem_append_left _ hold)
        · exact .inr ⟨by rw [Item.declares?, hkind], newScript_admits hnew⟩
      · exact .inl (List.mem_append_right _ hmain)
    | global | function | define => exact .inl hname
  | function hkind hnew =>
    cases kind with
    | function =>
      rcases Table.mem_names_insert.1 hname with hold | rfl
      · exact .inl hold
      · exact .inr ⟨by rw [Item.declares?, hkind], (newFunction_admits hnew).2⟩
    | global | script | define => exact .inl hname

end Layer

/-! ## Names apart -/

/-- No name is declared as two kinds, no function has the name that is kept for a script, and no
name is one of the runtime. -/
structure Program.NamesApart (p : Program) (v : Vocabulary) : Prop where
  /-- A name is declared as one kind of thing. -/
  kind_unique : ∀ {name kind kind'}, name ∈ p.namesOf kind → name ∈ p.namesOf kind' → kind = kind'
  /-- No function has the name of the script a program starts with. -/
  main_not_function : mainName ∉ p.functions.names
  /-- The runtime has nothing under a declared name. -/
  not_reserved : ∀ {name kind}, name ∈ p.namesOf kind →
    v.command? name = none ∧ v.global? name = none

namespace Program.NamesApart

variable {l : Layer} {items : List Item} {p q : Program}

theorem empty (v : Vocabulary) : Program.empty.NamesApart v := by
  have hnone : ∀ {name kind}, name ∉ Program.empty.namesOf kind := fun {name kind} ↦ by
    cases kind <;> exact List.not_mem_nil
  exact ⟨fun h ↦ absurd h hnone, List.not_mem_nil, fun h ↦ absurd h hnone⟩

private theorem declared {i : Item} (h : p.NamesApart l.vocabulary) (hi : l.Declared p i q) :
    q.NamesApart l.vocabulary where
  kind_unique {name kind kind'} hname hname' := by
    rcases hi.mem_namesOf hname with hold | ⟨hitem, hfree, -⟩
    · rcases hi.mem_namesOf hname' with hold' | ⟨-, hfree', -⟩
      · exact h.kind_unique hold hold'
      · by_contra hne
        exact declared?_eq_none_iff.1 hfree' kind (fun heq ↦ hne (Option.some.inj heq)) hold
    · rcases hi.mem_namesOf hname' with hold' | ⟨hitem', -⟩
      · by_contra hne
        exact declared?_eq_none_iff.1 hfree kind' (fun heq ↦ hne (Option.some.inj heq).symm) hold'
      -- an item declares one name, and as one kind
      · exact (Prod.mk.inj (Option.some.inj (hitem.symm.trans hitem'))).2
  main_not_function hmain := by
    cases hi with
    | function hkind hnew =>
      rcases Table.mem_names_insert.1 hmain with hold | heq
      · exact h.main_not_function hold
      · exact (Layer.newFunction_admits hnew).1 heq.symm
    | directive | seen | global | define | main | script => exact h.main_not_function hmain
  not_reserved hname := by
    rcases hi.mem_namesOf hname with hold | ⟨-, -, hreserved⟩
    · exact h.not_reserved hold
    · exact Layer.reservedAs?_eq_none_iff.1 hreserved

private theorem of_namesOf {v : Vocabulary} (h : p.NamesApart v)
    (hq : ∀ kind, q.namesOf kind = p.namesOf kind) : q.NamesApart v where
  kind_unique hname hname' := h.kind_unique (hq _ ▸ hname) (hq _ ▸ hname')
  main_not_function hmain := by
    have hfunctions : q.functions.names = p.functions.names := hq .function
    exact h.main_not_function (hfunctions ▸ hmain)
  not_reserved hname := h.not_reserved (hq _ ▸ hname)

theorem step (h : p.NamesApart l.vocabulary) (hstep : l.Step items p q) :
    q.NamesApart l.vocabulary := by
  cases hstep with
  | declare _ hi => exact h.declared hi
  | record => exact h.of_namesOf (SameNames.namesOf ⟨rfl, rfl, rfl, rfl, rfl⟩)
  | expand htexts => exact h.of_namesOf (namesOf_of_sameTexts htexts)
  | lower =>
    obtain ⟨root, new, hafter, -⟩ := after_lowerBody l _ _ p
    rw [hafter]
    exact h.of_namesOf (SameNames.namesOf ⟨rfl, rfl, rfl, rfl, rfl⟩)
  | @setBody owner _ _ id =>
    have hext : p.Extends l.depth (p.setBody owner id) := Program.extends_setBody
    exact h.of_namesOf hext.names.namesOf

end Program.NamesApart

namespace Session

theorem Reachable.namesApart {s : Session} (h : s.Reachable) :
    s.program.NamesApart s.vocabulary := by
  induction h with
  | new vocabulary entryFile => exact .empty vocabulary
  | @layer s hs source ih =>
    rw [(settings_compileLayer s source).1]
    refine compileLayer_induction (P := fun p ↦ p.NamesApart s.vocabulary) hs.sound ?_
      fun _ _ _ hp hstep ↦ hp.step hstep
    exact ⟨ih.kind_unique, ih.main_not_function, ih.not_reserved⟩

end Session

/-- In every program that a session reaches, accepted layers or not, no name is in two of the tables
of globals, functions, scripts and definitions, `main` being a script; no table has an entry `main`;
and no name is one of the commands or globals of the runtime. -/
theorem top_level_names_apart {s : Session} (hs : s.Reachable) :
    (∀ kind kind', kind ≠ kind' →
      List.Disjoint (s.program.namesOf kind) (s.program.namesOf kind')) ∧
    mainName ∉ s.program.scripts.names ∧ mainName ∉ s.program.functions.names ∧
    ∀ kind, ∀ name ∈ s.program.namesOf kind,
      s.vocabulary.command? name = none ∧ s.vocabulary.global? name = none := by
  have hapart := hs.namesApart
  refine ⟨fun kind kind' hne name hname hname' ↦ hne (hapart.kind_unique hname hname'),
    fun hmain ↦ ?_, hapart.main_not_function, fun kind name hname ↦ hapart.not_reserved hname⟩
  obtain ⟨c, hc⟩ := Table.mem_names_iff.1 hmain
  exact nomatch hc.symm.trans hs.sound.main_not_script

/-- A layer that stops at its third item, because the sample has a definition of that name. -/
def Sample.collision : String :=
  "script other() \x7b \x7d
global h
fn LIMIT() \x7b \x7d"

/-- The sample, and then a layer that stops at a collision. What it declared before that is still
there, and apart from all other names. -/
theorem top_level_names_apart_sample :
    ∃ e s,
      (Sample.start.compileLayer Sample.source).2.compileLayer Sample.collision = (.error e, s) ∧
      [Program.Kind.global, .function, .script, .define].map s.program.namesOf
        = [["g", "h"], ["add"], ["other", "main"], ["LIMIT"]] ∧
      ∀ kind kind', kind ≠ kind' →
        List.Disjoint (s.program.namesOf kind) (s.program.namesOf kind') := by
  obtain ⟨hfails, hnames⟩ : ((Sample.start.compileLayer Sample.source).2.compileLayer
        Sample.collision).1.toOption = none ∧
      [Program.Kind.global, .function, .script, .define].map
        ((Sample.start.compileLayer Sample.source).2.compileLayer
          Sample.collision).2.program.namesOf
        = [["g", "h"], ["add"], ["other", "main"], ["LIMIT"]] := by decide +kernel
  have hapart := (top_level_names_apart
    ((Sample.reachable_start.layer Sample.source).layer Sample.collision)).1
  generalize (Sample.start.compileLayer Sample.source).2.compileLayer Sample.collision = answer
    at hfails hnames hapart
  obtain ⟨result, s⟩ := answer
  cases result with
  | ok depth => contradiction
  | error e => exact ⟨e, s, rfl, hnames, hapart⟩

end CharacterScript
