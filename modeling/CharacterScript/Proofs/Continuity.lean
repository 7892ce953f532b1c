import CharacterScript.Proofs.Steps

/-!
# What a layer leaves as it was

A layer adds to a program. `Program.Follows` says what it does not touch: the names of each table
stay where they are and new ones come behind them, globals and scopes stay altogether, and so do the
pools and the records of other layers. Only callables are ever replaced, and one that is replaced
has the depth of the layer that declares it again.

The relation is transitive, and every step of a layer stands in it; so the program that a layer
leaves stands in it to the program before, wherever the layer stopped
(`Session.follows_compileLayer`).

## Prefixes

That a table keeps its places is said of its list of names: the names before are the front of the
names after. Order, slots and ids follow from it, and it is transitive without further ado.
-/

namespace CharacterScript

open Running

/-- `q` goes on from `p` with a layer of this depth, in which these callables are declared. -/
structure Program.Follows (depth : Nat) (declares : Owner → Prop) (p q : Program) : Prop where
  /-- Globals keep their places and are never declared anew. -/
  globals : p.globals.toList <+: q.globals.toList
  /-- Functions keep their places. -/
  functions : p.functions.names <+: q.functions.names
  /-- Scripts keep their places. -/
  scripts : p.scripts.names <+: q.scripts.names
  /-- Definitions keep their places. -/
  defines : p.defines.names <+: q.defines.names
  /-- Scopes are neither moved nor changed. -/
  scopes : p.scopes.toList <+: q.scopes.toList
  /-- The pools of other layers stay. -/
  pools : ∀ other ≠ depth, q.anonymous other = p.anonymous other
  /-- What is known of other layers stays. -/
  layers : ∀ other ≠ depth, q.layer? other = p.layer? other
  /-- A callable stays what it is unless this layer declares it, and then it is of this layer. -/
  callables : ∀ owner, q.callable? owner = p.callable? owner ∨
    declares owner ∧ ∃ c, q.callable? owner = some c ∧ c.depth = depth

namespace Program.Follows

variable {depth : Nat} {declares : Owner → Prop} {p q r : Program}

theorem refl : p.Follows depth declares p where
  globals := List.prefix_rfl
  functions := List.prefix_rfl
  scripts := List.prefix_rfl
  defines := List.prefix_rfl
  scopes := List.prefix_rfl
  pools _ _ := rfl
  layers _ _ := rfl
  callables _ := .inl rfl

theorem trans (h : p.Follows depth declares q) (h' : q.Follows depth declares r) :
    p.Follows depth declares r where
  globals := h.globals.trans h'.globals
  functions := h.functions.trans h'.functions
  scripts := h.scripts.trans h'.scripts
  defines := h.defines.trans h'.defines
  scopes := h.scopes.trans h'.scopes
  pools other hne := (h'.pools other hne).trans (h.pools other hne)
  layers other hne := (h'.layers other hne).trans (h.layers other hne)
  callables owner := by
    rcases h'.callables owner with heq | hnew
    · rw [heq]
      exact h.callables owner
    · exact .inr hnew

/-- A scope keeps its id. -/
theorem scope? (h : p.Follows depth declares q) {id : ScopeId} {s : Scope}
    (hs : p.scope? id = some s) : q.scope? id = some s := by
  obtain ⟨rest, hrest⟩ := h.scopes
  rw [Program.scope?, ← Array.getElem?_toList] at hs ⊢
  rw [← hrest, List.getElem?_append_left (List.getElem?_eq_some_iff.1 hs).1, hs]

/-- A callable that is there stays there, as it was or declared again. -/
theorem callable_isSome (h : p.Follows depth declares q) {owner : Owner} {c : Callable}
    (hc : p.callable? owner = some c) : ∃ c', q.callable? owner = some c' := by
  rcases h.callables owner with heq | ⟨-, c', hc', -⟩
  · exact ⟨c, heq.trans hc⟩
  · exact ⟨c', hc'⟩

/-- What is not of the new depth was there before. -/
theorem callable_of_ne (h : p.Follows depth declares q) {owner : Owner} {c : Callable}
    (hc : q.callable? owner = some c) (hne : c.depth ≠ depth) : p.callable? owner = some c := by
  rcases h.callables owner with heq | ⟨-, c', hc', hdepth⟩
  · exact heq.symm.trans hc
  · cases hc.symm.trans hc'
    exact absurd hdepth hne

end Program.Follows

/-! ## Steps

Each step touches one part of a program and leaves all others. The names of the parts it leaves
are the same, and that is the least one can be asked to prove. -/

namespace Layer

variable {l : Layer} {items : List Item} {p q : Program}

/-- The items of a text declare this callable. -/
def Declares (items : List Item) (owner : Owner) : Prop :=
  ∃ d, .callable d ∈ items ∧ d.owner = owner

private theorem follows_declared {i : Item} (hi : i ∈ items) (h : l.Declared p i q) :
    p.Follows l.depth (Declares items) q where
  globals := by
    rcases h.globals_cases with heq | ⟨name, pos, hfree, heq⟩
    · exact heq ▸ List.prefix_rfl
    · rw [heq, Table.toList_insert_of_none _ (Table.get?_eq_none_iff.1 hfree)]
      exact List.prefix_append _ _
  functions := by
    cases h with
    | function => exact Table.names_prefix_insert _ _ _
    | directive | seen | global | define | main | script => exact List.prefix_rfl
  scripts := by
    cases h with
    | script => exact Table.names_prefix_insert _ _ _
    | directive | seen | global | define | main | function => exact List.prefix_rfl
  defines := by
    rcases h.defines_cases with heq | ⟨d, e, -, heq⟩
    · exact heq ▸ List.prefix_rfl
    · rw [heq]
      exact Table.names_prefix_insert _ _ _
  scopes := by cases h <;> exact List.prefix_rfl
  pools other hne := by cases h <;> rfl
  layers other hne := by cases h <;> rfl
  callables owner := by
    rcases h.callable?_cases owner with heq | ⟨d, c, rfl, howner, hnew, heq⟩
    · exact .inl heq
    · exact .inr ⟨⟨d, hi, howner⟩, c, heq, hnew.depth⟩

private theorem follows_record :
    p.Follows l.depth (Declares items) { p with layers := p.layers.push (l.info items) } := by
  have hp : p.Follows l.depth (Declares items) p := .refl
  refine { hp with layers := fun other hne ↦ ?_, callables := fun owner ↦ .inl ?_ }
  · have hnew : ((l.info items).depth == other) = false := beq_false_of_ne (Ne.symm hne)
    rw [Program.layer?, Program.layer?, Array.find?_push, hnew]
    simp
  · cases owner <;> rfl

private theorem follows_expand {defines : Table Define}
    (h : Expansion.SameTexts p.defines defines) :
    p.Follows l.depth (Declares items) { p with defines } := by
  have hp : p.Follows l.depth (Declares items) p := .refl
  have hnames := congrArg Table.names h
  rw [Table.names_map, Table.names_map] at hnames
  refine { hp with defines := ?_, callables := fun owner ↦ .inl ?_ }
  · exact hnames ▸ List.prefix_rfl
  · cases owner <;> rfl

private theorem follows_lowerBody (hl : 0 < l.depth) (owner : Owner) (body : Block) :
    p.Follows l.depth (Declares items) (after (lowerBody l owner body) p) := by
  have hp : p.Follows l.depth (Declares items) p := .refl
  obtain ⟨root, new, hafter, -⟩ := after_lowerBody l owner body p
  rw [hafter]
  refine { hp with
    scopes := ?_
    pools := fun other hne ↦ Program.anonymous_grow_of_ne (p := p.addRoot root) new hl hne
    callables := fun owner ↦ .inl ?_ }
  · show p.scopes.toList <+: (p.scopes.push root ++ new.toArray).toList
    rw [Array.toList_append, Array.toList_push, List.append_assoc]
    exact List.prefix_append _ _
  · cases owner <;> rfl

theorem names_setBody (t : Table Callable) (name : String) (id : ScopeId) :
    (setBody t name id).names = t.names := by
  have hnames := congrArg Table.names (map_bare_setBody t name id)
  rwa [Table.names_map, Table.names_map] at hnames

private theorem follows_setBody {owner : Owner} {c : Callable} {id : ScopeId}
    (howner : Declares items owner) (hc : p.callable? owner = some c) (hdepth : c.depth = l.depth) :
    p.Follows l.depth (Declares items) (p.setBody owner id) where
  globals := by simp
  functions := by
    cases owner with
    | function name =>
      exact (names_setBody p.functions name id).symm ▸ List.prefix_rfl
    | main | script => exact List.prefix_rfl
  scripts := by
    cases owner with
    | script name =>
      exact (names_setBody p.scripts name id).symm ▸ List.prefix_rfl
    | main | function => exact List.prefix_rfl
  defines := by simp
  scopes := by simp
  pools other hne := p.setBody_anonymous owner id other
  layers other hne := by rw [Program.layer?, Program.setBody_layers, Program.layer?]
  callables other := by
    rw [Program.callable?_setBody]
    by_cases heq : other = owner
    · subst heq
      rw [if_pos rfl, hc]
      exact .inr ⟨howner, _, rfl, hdepth⟩
    · rw [if_neg heq]
      exact .inl rfl

theorem follows_step (hl : 0 < l.depth) (h : l.Step items p q) :
    p.Follows l.depth (Declares items) q := by
  cases h with
  | declare hi h => exact follows_declared hi h
  | record => exact follows_record
  | expand h => exact follows_expand h
  | lower => exact follows_lowerBody hl _ _
  | setBody h hc hdepth =>
    obtain ⟨d, hd, howner, -⟩ := mem_bodiesOf.1 h
    exact follows_setBody ⟨d, hd, howner⟩ hc hdepth

end Layer

/-! ## Layers -/

/-- The text reads as items that declare this callable. -/
def DeclaredIn (source : String) (owner : Owner) : Prop :=
  ∃ items, ReadsAs source items ∧ Layer.Declares items owner

namespace Session

private theorem follows_deepen {depth : Nat} {declares : Owner → Prop} (p : Program) :
    p.Follows depth declares (deepen p) := by
  have hp : p.Follows depth declares p := .refl
  refine { hp with
    pools := fun other _ ↦ Program.anonymous_deepen other
    callables := fun owner ↦ .inl ?_ }
  cases owner <;> rfl

/-- A layer, accepted or not, goes on from the program before it. -/
theorem follows_compileLayer {s : Session} (hs : s.program.Sound) (source : String) :
    s.program.Follows (s.program.depth + 1) (DeclaredIn source)
      (s.compileLayer source).2.program := by
  refine compileLayer_induction hs (follows_deepen _) fun {items} _ _ hitems _ _ hp hstep ↦ ?_
  have hfollows := Layer.follows_step (Nat.succ_pos _) hstep
  refine hp.trans { hfollows with callables := fun owner ↦ ?_ }
  rcases hfollows.callables owner with heq | ⟨howner, hc⟩
  · exact .inl heq
  · exact .inr ⟨⟨items, hitems, howner⟩, hc⟩

/-- One session comes out of another by compiling layers, accepted or not. -/
def Leads : Session → Session → Prop :=
  Relation.ReflTransGen fun s t ↦ ∃ source, t = (s.compileLayer source).2

theorem Leads.reachable {s t : Session} (h : s.Leads t) (hs : s.Reachable) : t.Reachable := by
  induction h with
  | refl => exact hs
  | tail _ hlayer ih =>
    obtain ⟨source, rfl⟩ := hlayer
    exact ih.layer source

/-- Scopes keep their ids in all that follows. -/
theorem Leads.scope? {s t : Session} (h : s.Leads t) (hs : s.Reachable) {id : ScopeId} {a : Scope}
    (ha : s.program.scope? id = some a) : t.program.scope? id = some a := by
  induction h with
  | refl => exact ha
  | tail hleads hlayer ih =>
    obtain ⟨source, rfl⟩ := hlayer
    exact (follows_compileLayer (Leads.reachable hleads hs).sound source).scope? ih

end Session

end CharacterScript
