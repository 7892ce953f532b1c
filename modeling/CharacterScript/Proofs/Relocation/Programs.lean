import CharacterScript.Proofs.Interface.Declaring
import CharacterScript.Proofs.Relocation.Trees
import Mathlib.Data.List.Forall2

/-!
# Declaring a layer that is written at other places

Two texts that differ in where things stand declare the same, at other positions. `Program.Moved`
says that two programs are the same up to positions. The offsets of definitions count, because code
sees only those in front of it: for the definitions of the layer being compiled they correspond in
the two texts.

Items that are the same up to places are accepted or refused together, and keep programs that are
the same so (`Layer.matches_declareAll_moved`).

## Answers

The questions that are asked about an item are answered by looking up names. They have the same
answers on both programs, or are refused with the same code. `Answers` is what is said of two
answers, with any relation between the values; equal answers up to positions are the case that
comes up most.
-/

namespace CharacterScript

open Running

/-! ## Tables with related values

Tables that have the same names in the same order and related values stay so when related values
are put in. This is all that is used about tables. -/

namespace Table

variable {α β γ δ : Type} {R : α → β → Prop} {S : γ → δ → Prop} {t : Table α} {u : Table β}

/-- The same names in the same order, and values that are related. -/
structure Alike (R : α → β → Prop) (t : Table α) (u : Table β) : Prop where
  /-- The names are the same, and in the same order. -/
  names : t.names = u.names
  /-- At one place are values that are related. -/
  values : ∀ {i name a b}, t.at? i = some (name, a) → u.at? i = some (name, b) → R a b

theorem getElem?_names (t : Table α) (i : Nat) : t.names[i]? = (t.at? i).map (·.1) := by
  rw [Table.names, List.getElem?_map, toList, Array.getElem?_toList]
  rfl

namespace Alike

theorem indexOf? (h : Alike R t u) (name : String) : t.indexOf? name = u.indexOf? name :=
  indexOf?_of_names h.names name

theorem size (h : Alike R t u) : t.size = u.size := by
  have hlength := congrArg List.length h.names
  simpa [Table.names, toList, Table.size] using hlength

/-- At a place both tables have an entry under one name, or both have none. -/
theorem at? (h : Alike R t u) (i : Nat) : (t.at? i = none ∧ u.at? i = none) ∨
    ∃ name a b, t.at? i = some (name, a) ∧ u.at? i = some (name, b) ∧ R a b := by
  have hname : (t.at? i).map (·.1) = (u.at? i).map (·.1) := by
    rw [← getElem?_names, ← getElem?_names, h.names]
  cases ht : t.at? i with
  | none =>
    rw [ht] at hname
    exact .inl ⟨rfl, Option.map_eq_none_iff.1 hname.symm⟩
  | some e =>
    rw [ht] at hname
    obtain ⟨⟨name, b⟩, hu, heq⟩ := Option.map_eq_some_iff.1 hname.symm
    obtain rfl : name = e.1 := heq
    exact .inr ⟨e.1, e.2, b, rfl, hu, h.values ht hu⟩

theorem get? (h : Alike R t u) (name : String) : Option.Rel R (t.get? name) (u.get? name) := by
  have hindex := h.indexOf? name
  cases ht : t.indexOf? name with
  | none =>
    rw [get?_eq_none_iff.2 ht, get?_eq_none_iff.2 (hindex ▸ ht)]
    exact .none
  | some i =>
    obtain ⟨a, ha, hat⟩ := get?_of_indexOf? ht
    obtain ⟨b, hb, hat'⟩ := get?_of_indexOf? (hindex ▸ ht)
    rw [ha, hb]
    exact .some (h.values hat hat')

theorem insert (h : Alike R t u) (name : String) {a : α} {b : β} (hab : R a b) :
    Alike R (t.insert name a) (u.insert name b) := by
  have hindex := h.indexOf? name
  refine ⟨?_, fun {i other c d} hc hd ↦ ?_⟩
  · rw [names_insert, names_insert, contains, contains, hindex, h.names]
  · cases ht : t.indexOf? name with
    | none =>
      rw [at?_insert_of_none a ht] at hc
      rw [at?_insert_of_none b (hindex ▸ ht), ← h.size] at hd
      split at hc
      · rw [if_pos ‹_›] at hd
        cases hc
        cases hd
        exact hab
      · rw [if_neg ‹_›] at hd
        exact h.values hc hd
    | some k =>
      rw [at?_insert_of_some a ht] at hc
      rw [at?_insert_of_some b (hindex ▸ ht)] at hd
      split at hc
      · rw [if_pos ‹_›] at hd
        cases hc
        cases hd
        exact hab
      · rw [if_neg ‹_›] at hd
        exact h.values hc hd

theorem modifyAt (h : Alike R t u) (k : Nat) {f : α → α} {g : β → β}
    (hfg : ∀ a b, R a b → R (f a) (g b)) : Alike R (t.modifyAt k f) (u.modifyAt k g) := by
  have hnames : ∀ {γ : Type} (t : Table γ) (f : γ → γ), (t.modifyAt k f).names = t.names := by
    intro γ t f
    apply List.ext_getElem?
    intro i
    rw [getElem?_names, getElem?_names, at?_modifyAt]
    split
    · rw [Option.map_map]
      rfl
    · rfl
  refine ⟨by rw [hnames, hnames, h.names], fun {i name c d} hc hd ↦ ?_⟩
  rw [at?_modifyAt] at hc hd
  split at hc
  · rw [if_pos ‹_›] at hd
    obtain ⟨⟨_, a⟩, ha, heq⟩ := Option.map_eq_some_iff.1 hc
    obtain ⟨⟨_, b⟩, hb, heq'⟩ := Option.map_eq_some_iff.1 hd
    cases heq
    cases heq'
    exact hfg a b (h.values ha hb)
  · rw [if_neg ‹_›] at hd
    exact h.values hc hd

theorem map (h : Alike R t u) {f : α → γ} {g : β → δ} (hfg : ∀ a b, R a b → S (f a) (g b)) :
    Alike S (t.map f) (u.map g) := by
  refine ⟨by rw [names_map, names_map, h.names], fun {i name c d} hc hd ↦ ?_⟩
  rw [at?_map] at hc hd
  obtain ⟨⟨_, a⟩, ha, heq⟩ := Option.map_eq_some_iff.1 hc
  obtain ⟨⟨_, b⟩, hb, heq'⟩ := Option.map_eq_some_iff.1 hd
  cases heq
  cases heq'
  exact hfg a b (h.values ha hb)

theorem toList (h : Alike R t u) :
    List.Forall₂ (fun e e' ↦ e.1 = e'.1 ∧ R e.2 e'.2) t.toList u.toList := by
  refine List.forall₂_iff_get.2 ⟨?_, fun i hi hi' ↦ ?_⟩
  · simpa [Table.toList, Table.size] using h.size
  · have ht : t.at? i = some (t.toList.get ⟨i, hi⟩) := by simp [Table.at?, Table.toList]
    have hu : u.at? i = some (u.toList.get ⟨i, hi'⟩) := by simp [Table.at?, Table.toList]
    obtain ⟨hnone, -⟩ | ⟨name, a, b, ha, hb, hab⟩ := h.at? i
    · cases ht.symm.trans hnone
    · rw [Option.some.inj (ht.symm.trans ha), Option.some.inj (hu.symm.trans hb)]
      exact ⟨rfl, hab⟩

theorem forall₂_values (h : Alike R t u) : List.Forall₂ R t.values u.values := by
  rw [Table.values, Table.values, List.forall₂_map_left_iff, List.forall₂_map_right_iff]
  exact h.toList.imp fun _ _ he ↦ he.2

end Alike

theorem alike_empty : Alike R (empty : Table α) (empty : Table β) :=
  ⟨rfl, fun h ↦ nomatch (at?_empty _).symm.trans h⟩

theorem alike_refl {R : α → α → Prop} (h : ∀ a ∈ t.values, R a a) : Alike R t t := by
  refine ⟨rfl, fun {i name a b} ha hb ↦ ?_⟩
  cases ha.symm.trans hb
  exact h a (mem_values_iff.2 ⟨name, get?_eq_some_iff.2 ⟨i, ha⟩⟩)

end Table

/-! ## Programs -/

/-- The same global at another position. -/
structure GlobalVar.Moved (g g' : GlobalVar) : Prop where
  /-- It has the same name. -/
  name : g'.ident.name = g.ident.name
  /-- It belongs to the same layer. -/
  depth : g'.depth = g.depth

/-- The same callable at another position. -/
structure Callable.Moved (c c' : Callable) : Prop where
  /-- It has the same name. -/
  name : c'.ident.name = c.ident.name
  /-- It belongs to the same layer. -/
  depth : c'.depth = c.depth
  /-- Its parameters have the same names. -/
  params : c'.params.map (·.name) = c.params.map (·.name)
  /-- It has as many references. -/
  refCount : c'.refCount = c.refCount
  /-- It has the same body. -/
  body : c'.body = c.body

/-- The same definition. One of the layer at depth `top` stands at corresponding places. -/
structure Define.Moved (top : Nat) (place : Offsets) (d d' : Define) : Prop where
  /-- It has the same name. -/
  name : d'.ident.name = d.ident.name
  /-- It belongs to the same layer. -/
  depth : d'.depth = d.depth
  /-- It was written in the same way. -/
  text : d'.text = d.text
  /-- It is expanded to the same. -/
  expansion : d'.expansion = d.expansion
  /-- In the layer at depth `top` the places correspond. -/
  place : d.depth = top → place d.offset d'.offset

/-- A scope with the names of its variables and not their positions. -/
def Scope.unplaced (s : Scope) : Scope :=
  { s with vars := s.vars.map fun i ↦ { i with pos := default } }

/-- The same program up to positions. -/
structure Program.Moved (top : Nat) (place : Offsets) (p q : Program) : Prop where
  /-- There are as many layers. -/
  depth : q.depth = p.depth
  /-- The globals are the same up to positions. -/
  globals : p.globals.Alike GlobalVar.Moved q.globals
  /-- The functions are the same up to positions. -/
  functions : p.functions.Alike Callable.Moved q.functions
  /-- The scripts are the same up to positions. -/
  scripts : p.scripts.Alike Callable.Moved q.scripts
  /-- So is the script a program starts with. -/
  main : Option.Rel Callable.Moved p.main q.main
  /-- The definitions are the same, at corresponding places. -/
  defines : p.defines.Alike (Define.Moved top place) q.defines
  /-- The scopes are the same up to the positions of variables. -/
  scopes : q.scopes.map Scope.unplaced = p.scopes.map Scope.unplaced
  /-- The pools are the same. -/
  pools : q.pools = p.pools

theorem Callable.Moved.refl (c : Callable) : c.Moved c :=
  ⟨rfl, rfl, rfl, rfl, rfl⟩

namespace Program.Moved

variable {top : Nat} {place : Offsets} {p q : Program}

/-- A program whose own definitions stay where they are. -/
theorem of_place (h : ∀ d ∈ p.defines.values, d.depth = top → place d.offset d.offset) :
    p.Moved top place p where
  depth := rfl
  globals := Table.alike_refl fun _ _ ↦ ⟨rfl, rfl⟩
  functions := Table.alike_refl fun c _ ↦ .refl c
  scripts := Table.alike_refl fun c _ ↦ .refl c
  main := by
    cases p.main with
    | none => exact .none
    | some c => exact .some (.refl c)
  defines := Table.alike_refl fun d hd ↦ ⟨rfl, rfl, rfl, rfl, h d hd⟩
  scopes := rfl
  pools := rfl

/-- A program with nothing of this layer in it. -/
theorem refl (h : ∀ d ∈ p.defines.values, d.depth ≠ top) : p.Moved top place p :=
  of_place fun d hd hdepth ↦ absurd hdepth (h d hd)

theorem sameTaken (h : p.Moved top place q) : p.SameTaken q where
  globals := h.globals.names
  functions := h.functions.names
  scripts := h.scripts.names
  defines := h.defines.names
  main := by
    obtain ⟨hp, hq⟩ | ⟨c, c', hp, hq, hc⟩ := both_of_rel h.main
    · rw [hp, hq]
    · rw [hp, hq, Option.map_some, Option.map_some, hc.name]

end Program.Moved

/-! ## Questions

One lemma for each question, in the order in which declaring asks them. -/

namespace Running

variable {α β : Type} {S : α → α → Prop} {T : β → β → Prop}

/-- Both have answers that are related, or problems with one code. -/
def Answers (S : α → α → Prop) : Except Problem α → Except Problem α → Prop
  | .ok a, .ok b => S a b
  | .error e, .error e' => e.code = e'.code
  | _, _ => False

theorem answers_of_coded {x y : Except Problem α} (h : coded x = coded y) : Answers Eq x y := by
  cases x <;> cases y
  case ok.ok => exact Except.ok.inj h
  case error.error => exact Except.error.inj h
  all_goals contradiction

theorem Answers.imp {S' : α → α → Prop} {x y : Except Problem α} (h : Answers S x y)
    (hS : ∀ {a b}, S a b → S' a b) : Answers S' x y := by
  cases x <;> cases y
  case ok.ok => exact hS h
  all_goals exact h

theorem Answers.symm {S' : α → α → Prop} {x y : Except Problem α} (h : Answers S x y)
    (hS : ∀ {a b}, S a b → S' b a) : Answers S' y x := by
  cases x <;> cases y
  case ok.ok => exact hS h
  case error.error => exact Eq.symm h
  all_goals exact h.elim

theorem Answers.trans {x y z : Except Problem α} (h : Answers S x y) (h' : Answers S y z)
    (hS : ∀ {a b c}, S a b → S b c → S a c) : Answers S x z := by
  cases x <;> cases y <;> cases z
  case ok.ok.ok => exact hS h h'
  case error.error.error => exact Eq.trans h h'
  all_goals first | exact h.elim | exact h'.elim

theorem Answers.bind {x y : Except Problem α} {f g : α → Except Problem β} (h : Answers S x y)
    (hfg : ∀ a b, S a b → Answers T (f a) (g b)) : Answers T (x >>= f) (y >>= g) := by
  cases x <;> cases y
  case ok.ok a b => exact hfg a b h
  case error.error => exact h
  all_goals exact h.elim

end Running

namespace Layer

variable {l l' : Layer} {p q : Program} {place : Offsets} {same : Block → Block → Prop}

/-- Layers of one depth, compiled against one vocabulary. -/
structure Same (l l' : Layer) : Prop where
  /-- The runtime provides the same. -/
  vocabulary : l.vocabulary = l'.vocabulary
  /-- They have the same number. -/
  depth : l.depth = l'.depth

section

variable (hl : l.Same l') (h : p.Moved l.depth place q)

include hl h

theorem coded_checkName (name : String) (kind : Program.Kind) (pos pos' : Position)
    {existing existing' : Option (Identifier × Nat)}
    (hexisting : existing.map (·.2) = existing'.map (·.2)) :
    coded (l.checkName p name kind pos existing) =
      coded (l'.checkName q name kind pos' existing') := by
  unfold checkName reservedAs?
  rw [hl.vocabulary]
  obtain ⟨hp, hq⟩ | ⟨other, other', hp, hq⟩ :=
    both_of_isSome (h.sameTaken.declared?_isSome name (some kind))
  · rw [hp, hq]
    dsimp only
    split
    · rfl
    · obtain ⟨he, he'⟩ | ⟨e, e', he, he', hdepth⟩ := both_of_map_eq hexisting
      · rw [he, he']
      · rw [he, he']
        dsimp only
        rw [hdepth, hl.depth]
        split <;> rfl
  · rw [hp, hq]
    rfl

theorem answers_newGlobal (name : String) (span span' : Span) :
    Answers (Option.Rel GlobalVar.Moved) (l.newGlobal name span p) (l'.newGlobal name span' q) := by
  have hget := both_of_rel (h.globals.get? name)
  have hdepth : ((p.globals.get? name).map fun g ↦ (g.ident, g.depth)).map (·.2)
      = ((q.globals.get? name).map fun g ↦ (g.ident, g.depth)).map (·.2) := by
    obtain ⟨hp, hq⟩ | ⟨g, g', hp, hq, hg⟩ := hget
    · rw [hp, hq]
    · rw [hp, hq]
      simp [hg.depth]
  refine (answers_of_coded (coded_checkName hl h name .global _ _ hdepth)).bind fun _ _ _ ↦ ?_
  obtain ⟨hp, hq⟩ | ⟨g, g', hp, hq, -⟩ := hget
  · rw [hp, hq]
    exact .some ⟨rfl, hl.depth.symm⟩
  · rw [hp, hq]
    exact .none

theorem answers_newDefine {d d' : DefineDecl} (hd : d.Moves place d') :
    Answers (Define.Moved l.depth place) (l.newDefine d p) (l'.newDefine d' q) := by
  have hdepth : ((p.defines.get? d.name).map fun e ↦ (e.ident, e.depth)).map (·.2)
      = ((q.defines.get? d.name).map fun e ↦ (e.ident, e.depth)).map (·.2) := by
    obtain ⟨hp, hq⟩ | ⟨e, e', hp, hq, he⟩ := both_of_rel (h.defines.get? d.name)
    · rw [hp, hq]
    · rw [hp, hq]
      simp [he.depth]
  rw [newDefine, newDefine, hd.name]
  exact (answers_of_coded (coded_checkName hl h d.name .define _ _ hdepth)).bind fun _ _ _ ↦
    ⟨rfl, hl.depth.symm, hd.text, rfl, fun _ ↦ hd.place⟩

theorem answers_newParams : ∀ {params params' : List Param} {done done' : List Identifier},
    params'.map (·.name) = params.map (·.name) → done'.map (·.name) = done.map (·.name) →
    Answers (fun is is' ↦ is'.map (·.name) = is.map (·.name)) (l.newParams p done params)
      (l'.newParams q done' params')
  | [], [], done, done', _, hdone => by
    rw [newParams, newParams]
    show done'.reverse.map _ = done.reverse.map _
    rw [List.map_reverse, List.map_reverse, hdone]
  | [], _ :: _, _, _, hparams, _ | _ :: _, [], _, _, hparams, _ => by cases hparams
  | param :: rest, param' :: rest', done, done', hparams, hdone => by
    obtain ⟨hhead, hrest⟩ := List.cons.inj hparams
    have hname : param'.name = param.name := hhead
    have hfound : ∀ {is : List Identifier}, (is.find? (·.name == param.name)).isSome
        = (is.map (·.name)).any (· == param.name) := by
      intro is
      rw [Bool.eq_iff_iff, List.find?_isSome, List.any_map, List.any_eq_true]
      rfl
    have htaken : ((p.declared? param.name none).or
          (done.reverse.find? (·.name == param.name))).isSome
        = ((q.declared? param.name none).or
          (done'.reverse.find? (·.name == param.name))).isSome := by
      rw [Option.isSome_or, Option.isSome_or, h.sameTaken.declared?_isSome, hfound, hfound,
        List.map_reverse, List.map_reverse, hdone]
    rw [newParams, newParams, hname, ← hl.vocabulary]
    obtain ⟨hp, hq⟩ | ⟨other, other', hp, hq⟩ := both_of_isSome htaken
    · rw [hp, hq]
      dsimp only
      split
      · rfl
      · exact answers_newParams hrest (by simp [hdone])
    · rw [hp, hq]
      rfl

theorem answers_newCallable (kind : IdentKind) {d d' : CallableDecl} (hd : d.Moves same d') :
    Answers Callable.Moved (l.newCallable kind d p) (l'.newCallable kind d' q) := by
  have hnames : d'.params.map (·.name) = d.params.map (·.name) := by
    simpa [Function.comp_def] using congrArg (List.map (·.1)) hd.params
  have hrefs : d'.refCount = d.refCount := by
    have hflags : d'.params.map (·.isRef) = d.params.map (·.isRef) := by
      simpa [Function.comp_def] using congrArg (List.map (·.2)) hd.params
    have hcount : ∀ ps : List Param,
        (ps.takeWhile (·.isRef)).length = ((ps.map (·.isRef)).takeWhile id).length := by
      intro ps
      rw [List.takeWhile_map, List.length_map]
      rfl
    rw [CallableDecl.refCount, CallableDecl.refCount, hcount, hcount, hflags]
  refine (answers_newParams hl h hnames (rfl : ([] : List Identifier).map _ = _)).bind
    fun params params' hparams ↦ ?_
  have hlength : params'.length = params.length := by simpa using congrArg List.length hparams
  rw [hrefs, hlength]
  split
  · rfl
  · exact ⟨hd.name, hl.depth.symm, hparams, rfl, rfl⟩

theorem answers_newScript {d d' : CallableDecl} (hd : d.Moves same d') :
    Answers Callable.Moved (l.newScript d p) (l'.newScript d' q) := by
  have hexisting : Option.Rel Callable.Moved
      (if d.name == mainName then p.main else p.scripts.get? d.name)
      (if d.name == mainName then q.main else q.scripts.get? d.name) := by
    split
    · exact h.main
    · exact h.scripts.get? d.name
  rw [newScript, newScript, hd.name]
  refine (answers_of_coded (coded_checkName hl h _ _ _ _ ?_)).bind fun _ _ _ ↦
    answers_newCallable hl h .script hd
  obtain ⟨hp, hq⟩ | ⟨c, c', hp, hq, hc⟩ := both_of_rel hexisting
  · rw [hp, hq]
  · rw [hp, hq]
    simp [hc.depth]

theorem answers_newFunction {d d' : CallableDecl} (hd : d.Moves same d') :
    Answers Callable.Moved (l.newFunction d p) (l'.newFunction d' q) := by
  rw [newFunction, newFunction, hd.name]
  dsimp only
  split
  · rfl
  · refine (answers_of_coded (coded_checkName hl h _ _ _ _ ?_)).bind fun _ _ _ ↦
      answers_newCallable hl h .function hd
    obtain ⟨hp, hq⟩ | ⟨c, c', hp, hq, hc⟩ := both_of_rel (h.functions.get? d.name)
    · rw [hp, hq]
    · rw [hp, hq]
      simp [hc.depth]

end

/-! ## Items -/

theorem matches_inspect_of_answers {α : Type} {S : α → α → Prop} {R : Program → Program → Prop}
    {look look' : Program → Except Problem α}
    (hlook : ∀ {p q}, R p q → Answers S (look p) (look' q)) :
    Matches R S (inspect look) (inspect look') := by
  intro p q h
  have hanswers := hlook h
  rw [inspect, inspect]
  cases hp : look p <;> cases hq : look' q <;> rw [hp, hq] at hanswers
  case ok.ok => exact ⟨hanswers, h⟩
  case error.error => exact hanswers
  all_goals exact hanswers.elim

theorem matches_declareItem_moved (hl : l.Same l') : ∀ {i i' : Item}, i.Moves place same i' →
    Matches (Program.Moved l.depth place) Eq (l.declareItem i) (l'.declareItem i')
  | .directive _ _ _, _, ⟨_, _, _, rfl⟩ => .pure _
  | .global name span, _, ⟨span', rfl⟩ => by
    have hnew := matches_inspect_of_answers (R := Program.Moved l.depth place)
      fun h ↦ answers_newGlobal hl h name span span'
    intro p q h
    refine (hnew p q h).bind fun g g' p q _ _ hg h ↦ ?_
    cases hg with
    | none => exact ⟨rfl, h⟩
    | some hg => exact ⟨rfl, { h with globals := h.globals.insert name hg }⟩
  | .define d, _, ⟨d', rfl, hd⟩ => by
    have hnew := matches_inspect_of_answers (R := Program.Moved l.depth place)
      fun h ↦ answers_newDefine hl h hd
    intro p q h
    refine (hnew p q h).bind fun e e' p q _ _ he h ↦ ?_
    rw [hd.name]
    exact ⟨rfl, { h with defines := h.defines.insert d.name he }⟩
  | .callable d, _, ⟨d', rfl, hd⟩ => by
    rw [declareItem, declareItem, hd.kind, hd.name]
    cases d.kind with
    | script =>
      have hnew := matches_inspect_of_answers (R := Program.Moved l.depth place)
        fun h ↦ answers_newScript hl h hd
      intro p q h
      refine (hnew p q h).bind fun c c' p q _ _ hc h ↦ ?_
      split
      · exact ⟨rfl, { h with main := .some hc }⟩
      · exact ⟨rfl, { h with scripts := h.scripts.insert d.name hc }⟩
    | function =>
      have hnew := matches_inspect_of_answers (R := Program.Moved l.depth place)
        fun h ↦ answers_newFunction hl h hd
      intro p q h
      refine (hnew p q h).bind fun c c' p q _ _ hc h ↦ ?_
      exact ⟨rfl, { h with functions := h.functions.insert d.name hc }⟩

/-- Items that are the same up to places declare the same up to positions. -/
theorem matches_declareAll_moved (hl : l.Same l') {items items' : List Item}
    (h : List.Forall₂ (Item.Moves place same) items items') :
    Matches (Program.Moved l.depth place) Eq (l.declareAll items) (l'.declareAll items') := by
  induction h with
  | nil => exact .pure _
  | cons hi _ ih => exact .bind (matches_declareItem_moved hl hi) fun _ ↦ ih

end Layer

end CharacterScript
