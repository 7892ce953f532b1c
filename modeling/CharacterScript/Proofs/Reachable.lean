import CharacterScript.Session
import CharacterScript.Proofs.Declaring
import CharacterScript.Proofs.Lowering.Growth
import CharacterScript.Proofs.TreeSpans

/-!
# The programs a session can reach

A session goes on after a layer that failed, so what is known of its program must hold after every
layer, accepted or not: `Session.Reachable` makes no difference between the two. What is known is
`Program.Sound`. The pool of a layer is a function of the arena, namely the ids of the scopes of
that depth that have a parent, in order; so nothing has to be said about pools beyond this one
equation.

## Step by step

The proof goes step by step through a layer. Declaring changes tables only. Lowering a body adds the
scope of the body, which is in no pool, and scopes that are all in the pool of the layer, whatever
the outcome (`after_lowerBody`).

## What is not asked

A sound program may have callables without bodies and scopes without code: a layer that failed
leaves both. It may not have a body that is no scope, or a scope of a layer that does not exist.
These would be seen by later layers; the others are only ever replaced.
-/

namespace CharacterScript

open Running

/-! ## Sound programs

Each part of soundness is one that some later proof needs and that every step keeps. Nothing is in
it that could be computed from the rest. -/

/-- What is known of a callable in a program of this depth with so many scopes. -/
structure Callable.Sound (depth scopes : Nat) (c : Callable) : Prop where
  /-- Its name has only characters of words. -/
  isWord : IsWord c.ident.name
  /-- It was declared by one of the layers. -/
  depth_le : c.depth ≤ depth
  /-- It has no more references than parameters. -/
  refCount_le : c.refCount.toNat ≤ c.params.length
  /-- Its body is one of the scopes. -/
  body_lt : ∀ {id}, c.body = some id → id < scopes

theorem Callable.Sound.mono {depth scopes depth' scopes' : Nat} {c : Callable}
    (h : c.Sound depth scopes) (hdepth : depth ≤ depth') (hscopes : scopes ≤ scopes') :
    c.Sound depth' scopes' :=
  ⟨h.isWord, h.depth_le.trans hdepth, h.refCount_le, fun hid ↦ (h.body_lt hid).trans_le hscopes⟩

namespace Program

/-- Whether a scope belongs into the pool of a layer. -/
def isAnonymous (p : Program) (depth : Nat) (id : ScopeId) : Bool :=
  (p.scope? id).any fun s ↦ s.depth == depth && s.parent.isSome

theorem isAnonymous_iff {p : Program} {depth : Nat} {id : ScopeId} :
    p.isAnonymous depth id = true ↔
      ∃ s, p.scope? id = some s ∧ s.depth = depth ∧ s.parent.isSome := by
  rw [isAnonymous, Option.any_eq_true]
  simp

/-- What holds of every program that layers have been compiled into, whether they failed or not. -/
structure Sound (p : Program) : Prop where
  /-- Each layer has a pool. -/
  pools : p.pools.size = p.depth
  /-- Each scope belongs to one of the layers. -/
  depths : ∀ {id s}, p.scope? id = some s → 0 < s.depth ∧ s.depth ≤ p.depth
  /-- The pool of a layer has the scopes of that depth with a parent, in order. -/
  anonymous : ∀ depth, (p.anonymous depth).toList
    = (List.range p.scopes.size).filter (p.isAnonymous depth)
  /-- The functions are sound. -/
  functions : ∀ c ∈ p.functions.values, c.Sound p.depth p.scopes.size
  /-- The scripts in the table are sound. -/
  scripts : ∀ c ∈ p.scripts.values, c.Sound p.depth p.scopes.size
  /-- The script a program starts with is sound. -/
  main : ∀ {c}, p.main = some c → c.Sound p.depth p.scopes.size
  /-- The script a program starts with is not in the table. -/
  main_not_script : p.scripts.get? mainName = none
  /-- Each definition belongs to one of the layers. -/
  defines : ∀ d ∈ p.defines.values, d.depth ≤ p.depth

theorem sound_empty : empty.Sound where
  pools := rfl
  depths h := by simp [scope?, empty] at h
  anonymous depth := by simp [anonymous, empty]
  functions := Table.forall_values_empty
  scripts := Table.forall_values_empty
  main h := nomatch h
  main_not_script := Table.get?_empty _
  defines := Table.forall_values_empty

theorem callable?_empty (owner : Owner) : empty.callable? owner = none := by
  cases owner with
  | main => rfl
  | script name => exact Table.get?_empty name
  | function name => exact Table.get?_empty name

variable {p : Program}

theorem Sound.callable (h : p.Sound) {owner : Owner} {c : Callable}
    (hc : p.callable? owner = some c) : c.Sound p.depth p.scopes.size := by
  cases owner with
  | main => exact h.main hc
  | script name => exact h.scripts c (Table.mem_values_iff.2 ⟨name, hc⟩)
  | function name => exact h.functions c (Table.mem_values_iff.2 ⟨name, hc⟩)

theorem Sound.mem_anonymous (h : p.Sound) {depth : Nat} {id : ScopeId} :
    id ∈ (p.anonymous depth).toList ↔
      ∃ s, p.scope? id = some s ∧ s.depth = depth ∧ s.parent.isSome := by
  rw [h.anonymous, List.mem_filter, List.mem_range, isAnonymous_iff]
  constructor
  · exact fun hid ↦ hid.2
  · rintro ⟨s, hs, hrest⟩
    exact ⟨(Array.getElem?_eq_some_iff.1 hs).1, s, hs, hrest⟩

theorem Sound.pairwise_anonymous (h : p.Sound) (depth : Nat) :
    (p.anonymous depth).toList.Pairwise (· < ·) := by
  rw [h.anonymous]
  exact List.pairwise_lt_range.filter _

/-! ### One layer deeper -/

theorem anonymous_deepen (depth : Nat) :
    (Session.deepen p).anonymous depth = p.anonymous depth := by
  rw [anonymous, anonymous, Session.deepen]
  split
  · rfl
  · simp only [Array.getD_eq_getD_getElem?, Array.getElem?_push]
    split
    next heq => simp [heq]
    next => rfl

theorem Sound.deepen (h : p.Sound) : (Session.deepen p).Sound where
  pools := by
    rw [Session.deepen, Array.size_push, h.pools]
  depths hs := ⟨(h.depths hs).1, (h.depths hs).2.trans (Nat.le_succ _)⟩
  anonymous depth := by
    rw [anonymous_deepen, h.anonymous]
    rfl
  functions c hc := (h.functions c hc).mono (Nat.le_succ _) (Nat.le_refl _)
  scripts c hc := (h.scripts c hc).mono (Nat.le_succ _) (Nat.le_refl _)
  main hc := (h.main hc).mono (Nat.le_succ _) (Nat.le_refl _)
  main_not_script := h.main_not_script
  defines d hd := (h.defines d hd).trans (Nat.le_succ _)

/-! ### More scopes -/

private theorem isAnonymous_of_scope {q : Program} {depth : Nat} {id : ScopeId}
    (h : q.scope? id = p.scope? id) : q.isAnonymous depth id = p.isAnonymous depth id := by
  rw [isAnonymous, h, isAnonymous]

private theorem scope?_addRoot (root : Scope) (id : ScopeId) :
    (p.addRoot root).scope? id = if id = p.scopes.size then some root else p.scope? id :=
  Array.getElem?_push

theorem Sound.addRoot (h : p.Sound) {root : Scope} (hdepth : 0 < root.depth ∧ root.depth ≤ p.depth)
    (hparent : root.parent = none) : (p.addRoot root).Sound := by
  have hsize : (p.addRoot root).scopes.size = p.scopes.size + 1 := Array.size_push _
  have hle : p.scopes.size ≤ (p.addRoot root).scopes.size := by omega
  refine ⟨h.pools, fun {id s} hs ↦ ?_, fun depth ↦ ?_,
    fun c hc ↦ (h.functions c hc).mono (Nat.le_refl _) hle,
    fun c hc ↦ (h.scripts c hc).mono (Nat.le_refl _) hle,
    fun hc ↦ (h.main hc).mono (Nat.le_refl _) hle, h.main_not_script, h.defines⟩
  · rw [scope?_addRoot] at hs
    split at hs
    · cases hs
      exact hdepth
    · exact h.depths hs
  -- the new scope has no parent, so no pool gets longer
  · have hnew : (p.addRoot root).isAnonymous depth p.scopes.size = false := by
      rw [isAnonymous, scope?_addRoot, if_pos rfl]
      simp [hparent]
    have hold : ∀ id ∈ List.range p.scopes.size,
        (p.addRoot root).isAnonymous depth id = p.isAnonymous depth id := by
      intro id hid
      refine isAnonymous_of_scope ?_
      rw [scope?_addRoot, if_neg (Nat.ne_of_lt (List.mem_range.1 hid))]
    rw [hsize, List.range_succ, List.filter_append, List.filter_congr hold, ← h.anonymous]
    simp [hnew]
    rfl

theorem anonymous_grow_of_ne {depth other : Nat} (new : List Scope) (hdepth : 0 < depth)
    (hne : other ≠ depth) : (p.grow depth new).anonymous other = p.anonymous other := by
  rw [anonymous, anonymous]
  split
  · rfl
  · rw [grow, Array.getD_eq_getD_getElem?, Array.getD_eq_getD_getElem?, Array.getElem?_modify,
      if_neg (by omega)]

theorem Sound.grow (h : p.Sound) {depth : Nat} {new : List Scope} (hpos : 0 < depth)
    (hle : depth ≤ p.depth) (hnew : ∀ s ∈ new, s.depth = depth ∧ s.parent.isSome) :
    (p.grow depth new).Sound := by
  have hsize := p.size_scopes_grow depth new
  have hmono : p.scopes.size ≤ (p.grow depth new).scopes.size := by omega
  have hscope : ∀ id, (p.grow depth new).scope? id =
      if id < p.scopes.size then p.scope? id else new[id - p.scopes.size]? := by
    intro id
    simp only [scope?, grow_scopes, Array.getElem?_append, List.getElem?_toArray]
  refine ⟨?_, fun {id s} hs ↦ ?_, fun other ↦ ?_,
    fun c hc ↦ (h.functions c hc).mono (Nat.le_refl _) hmono,
    fun c hc ↦ (h.scripts c hc).mono (Nat.le_refl _) hmono,
    fun hc ↦ (h.main hc).mono (Nat.le_refl _) hmono, h.main_not_script, h.defines⟩
  · show (p.pools.modify _ _).size = p.depth
    rw [Array.size_modify, h.pools]
  · rw [hscope] at hs
    split at hs
    · exact h.depths hs
    · obtain ⟨rfl, -⟩ := hnew s (List.mem_of_getElem? hs)
      exact ⟨hpos, hle⟩
  · have hold : ∀ id ∈ List.range p.scopes.size,
        (p.grow depth new).isAnonymous other id = p.isAnonymous other id := by
      intro id hid
      refine isAnonymous_of_scope ?_
      rw [hscope, if_pos (List.mem_range.1 hid)]
    -- the new scopes are in the pool of their layer and in no other one
    have hadded : ∀ id ∈ List.range' p.scopes.size new.length,
        (p.grow depth new).isAnonymous other id = (depth == other) := by
      intro id hid
      obtain ⟨hge, hlt⟩ := List.mem_range'_1.1 hid
      obtain ⟨s, hs⟩ : ∃ s, new[id - p.scopes.size]? = some s :=
        ⟨_, List.getElem?_eq_getElem (by omega)⟩
      obtain ⟨hd, hp⟩ := hnew s (List.mem_of_getElem? hs)
      rw [isAnonymous, hscope, if_neg (Nat.not_lt.2 hge), hs]
      simp [hd, hp]
    -- old ids first, new ids behind them
    have hrange : List.range (p.scopes.size + new.length)
        = List.range p.scopes.size ++ List.range' p.scopes.size new.length := by
      rw [List.range_eq_range', List.range_eq_range', ← List.range'_append]
      simp
    rw [hsize, hrange, List.filter_append, List.filter_congr hold, List.filter_congr hadded,
      ← h.anonymous]
    by_cases heq : other = depth
    · subst heq
      rw [anonymous_grow p other new hpos (h.pools ▸ hle)]
      simp [List.filter_eq_self.2]
    · rw [anonymous_grow_of_ne new hpos heq]
      simp [Ne.symm heq]

end Program

/-! ## Expanding definitions -/

namespace Expansion

/-- The tables agree but for the expansions. -/
def SameTexts (t t' : Table Define) : Prop :=
  t'.map Define.reset = t.map Define.reset

theorem SameTexts.trans {t u v : Table Define} (h : SameTexts t u) (h' : SameTexts u v) :
    SameTexts t v :=
  Eq.trans h' h

private theorem sameTexts_foldlM {α β : Type} {f : β → α → EStateM Problem (Table Define) β}
    (hf : ∀ b a t, SameTexts t (after (f b a) t)) (as : List α) (b : β) (t : Table Define) :
    SameTexts t (after (as.foldlM f b) t) := by
  induction as generalizing b t with
  | nil => rfl
  | cons a as ih =>
    rw [List.foldlM_cons]
    exact after_bind .trans (hf b a t) fun b' t' _ ↦ ih b' t'

private theorem sameTexts_substitute {expandOther : Nat → EStateM Problem (Table Define) Unit}
    (hother : ∀ i t, SameTexts t (after (expandOther i) t)) (text : String) (other : Nat)
    (t : Table Define) : SameTexts t (after (substitute expandOther text other) t) := by
  rw [substitute, after_get_bind]
  split
  · rfl
  · split
    · split
      · refine after_bind .trans (hother other t) fun _ t' _ ↦ ?_
        rw [after_get_bind]
        split <;> rfl
      · rw [after_get_bind]
        split <;> rfl
    · rfl

private theorem sameTexts_expand : ∀ (budget index : Nat) (t : Table Define),
    SameTexts t (after (expand budget index) t)
  | 0, index, t => by
    rw [expand, after_get_bind]
    split <;> rfl
  | budget + 1, index, t => by
    rw [expand, after_get_bind]
    split
    · rfl
    · rw [after_get_bind]
      refine after_bind .trans (sameTexts_foldlM
        (sameTexts_substitute (sameTexts_expand budget)) _ _ _) fun text t' _ ↦ ?_
      split
      · rfl
      · rw [after_modify]
        exact Table.map_modifyAt _ _ fun _ ↦ rfl

private theorem sameTexts_ensure (index : Nat) (t : Table Define) :
    SameTexts t (after (ensure index) t) := by
  rw [ensure, after_get_bind]
  split
  · rfl
  · split
    · exact sameTexts_expand _ _ _
    · rfl

private theorem sameTexts_forM_ensure (is : List Nat) (t : Table Define) :
    SameTexts t (after (is.forM ensure) t) := by
  induction is generalizing t with
  | nil => rfl
  | cons i is ih =>
    rw [List.forM_eq_forM, List.forM_cons]
    exact after_bind .trans (sameTexts_ensure i t) fun _ t' _ ↦ ih t'

theorem sameTexts_expandAll (t : Table Define) : SameTexts t (after expandAll t) := by
  have hreset : SameTexts t (t.map Define.reset) := Table.map_map t _ fun _ ↦ rfl
  rw [expandAll, after_modify_bind, after_get_bind]
  exact hreset.trans (sameTexts_forM_ensure _ _)

/-- A definition keeps everything but its expansion. -/
theorem SameTexts.get? {t t' : Table Define} (h : SameTexts t t') {name : String} {d : Define}
    (hd : t'.get? name = some d) : ∃ old, t.get? name = some old ∧ old.reset = d.reset := by
  have hget : (t'.map Define.reset).get? name = (t.map Define.reset).get? name := by rw [h]
  rw [Table.get?_map, Table.get?_map, hd, Option.map_some, eq_comm, Option.map_eq_some_iff] at hget
  exact hget

end Expansion

/-! ## The steps of a layer

Each step is one that only changes tables, or one that only adds scopes. The first kind leaves the
arena alone, the second kind the tables. -/

namespace Layer

/-- A program of this layer that is sound stays one. -/
def Keeps (l : Layer) (p q : Program) : Prop :=
  p.Sound ∧ p.depth = l.depth → q.Sound ∧ q.depth = l.depth

variable {l : Layer}

private theorem Keeps.trans {p q r : Program} (h : l.Keeps p q) (h' : l.Keeps q r) :
    l.Keeps p r :=
  fun hp ↦ h' (h hp)

private theorem New.sound {p : Program} {d : CallableDecl} {c : Callable} (h : l.New d c)
    (hword : IsWord d.name) (hdepth : p.depth = l.depth) : c.Sound p.depth p.scopes.size where
  isWord := h.name ▸ hword
  depth_le := (h.depth.trans hdepth.symm).le
  refCount_le := h.refCount
  body_lt hid := nomatch h.body.symm.trans hid

theorem keeps_declared {p q : Program} {i : Item} (h : l.Declared p i q)
    (hword : ∀ d, i = .callable d → IsWord d.name) : l.Keeps p q := by
  rintro ⟨hp, hdepth⟩
  cases h with
  | directive | seen => exact ⟨hp, hdepth⟩
  | global => exact ⟨{ hp with }, hdepth⟩
  | define hnew =>
    obtain rfl := newDefine_eq_ok hnew
    exact ⟨{ hp with defines := Table.forall_values_insert hp.defines hdepth.symm.le }, hdepth⟩
  | main hkind hname hnew =>
    refine ⟨{ hp with main := fun hc ↦ ?_ }, hdepth⟩
    cases hc
    exact (newScript_new hnew).1.sound (hword _ rfl) hdepth
  | script hkind hname hnew =>
    refine ⟨{ hp with scripts := ?_, main_not_script := ?_ }, hdepth⟩
    · exact Table.forall_values_insert hp.scripts
        ((newScript_new hnew).1.sound (hword _ rfl) hdepth)
    · exact (Table.get?_insert_of_ne _ (Ne.symm hname)).trans hp.main_not_script
  | function hkind hnew =>
    refine ⟨{ hp with functions := ?_ }, hdepth⟩
    exact Table.forall_values_insert hp.functions
      ((newFunction_new hnew).1.sound (hword _ rfl) hdepth)

theorem keeps_declareAll (items : List Item) (p : Program)
    (hword : ∀ d, .callable d ∈ items → IsWord d.name) :
    l.Keeps p (after (l.declareAll items) p) := by
  induction items generalizing p with
  | nil => exact id
  | cons i items ih =>
    refine after_bind .trans ?_ fun _ t _ ↦ ih t fun d hd ↦ hword d (List.mem_cons_of_mem _ hd)
    cases h : l.declareItem i p with
    | ok u q =>
      rw [after_of_ok h]
      exact keeps_declared (declareItem_declared h) fun d hd ↦ hword d (hd ▸ List.mem_cons_self)
    | error e q =>
      -- an item that is refused leaves the program as it was
      rw [after_of_error h, declareItem_error h]
      exact id

theorem after_onDefines {α : Type} (x : EStateM Problem (Table Define) α) (p : Program) :
    after (onDefines x) p = { p with defines := after x p.defines } := by
  rw [after, onDefines, after]
  cases x p.defines <;> rfl

/-- New expansions keep a sound program. -/
theorem keeps_sameTexts {p : Program} {defines : Table Define}
    (h : Expansion.SameTexts p.defines defines) : l.Keeps p { p with defines } := by
  rintro ⟨hp, hdepth⟩
  refine ⟨{ hp with defines := fun d hd ↦ ?_ }, hdepth⟩
  obtain ⟨name, hname⟩ := Table.mem_values_iff.1 hd
  obtain ⟨old, hold, hreset⟩ := h.get? hname
  have hle : old.reset.depth ≤ p.depth := hp.defines old (Table.mem_values_iff.2 ⟨name, hold⟩)
  rw [hreset] at hle
  exact hle

theorem keeps_expandAll (p : Program) : l.Keeps p (after (onDefines Expansion.expandAll) p) := by
  rw [after_onDefines]
  exact keeps_sameTexts (Expansion.sameTexts_expandAll p.defines)

theorem keeps_lowerBody (hl : 0 < l.depth) (owner : Owner) (body : Block) (p : Program) :
    l.Keeps p (after (lowerBody l owner body) p) := by
  rintro ⟨hp, hdepth⟩
  obtain ⟨root, new, hafter, hroot, hparent, hnew⟩ := after_lowerBody l owner body p
  rw [hafter]
  have hadd : (p.addRoot root).Sound :=
    hp.addRoot ⟨hroot ▸ hl, (hroot.trans hdepth.symm).le⟩ hparent
  exact ⟨hadd.grow hl hdepth.symm.le hnew, hdepth⟩

/-- The id that lowering a body gives is that of a scope. -/
theorem lowerBody_lt {owner : Owner} {body : Block} {p q : Program} {id : ScopeId}
    (h : lowerBody l owner body p = .ok id q) : id < q.scopes.size := by
  obtain ⟨root, new, hafter, -⟩ := after_lowerBody l owner body p
  rw [after_of_ok h] at hafter
  have hsize : q.scopes.size = p.scopes.size + 1 + new.length := by
    rw [hafter, Program.size_scopes_grow, Program.addRoot, Array.size_push]
  have hlt : p.scopes.size < q.scopes.size := by omega
  exact lowerBody_id h ▸ hlt

theorem get?_setBody (t : Table Callable) (name : String) (id : ScopeId) (other : String) :
    (setBody t name id).get? other
      = if other = name then (t.get? other).map fun c ↦ { c with body := some id }
        else t.get? other := by
  rw [setBody]
  split
  next i hi => exact Table.get?_modifyAt _ hi other
  next hnone =>
    split
    next heq =>
      subst heq
      rw [Table.get?_eq_none_iff.2 hnone]
      rfl
    next => rfl

end Layer

/-- The program with the body of a callable set. -/
def Program.setBody (p : Program) (owner : Owner) (id : ScopeId) : Program :=
  match owner with
  | .main => { p with main := p.main.map fun c ↦ { c with body := some id } }
  | .script name => { p with scripts := Layer.setBody p.scripts name id }
  | .function name => { p with functions := Layer.setBody p.functions name id }

namespace Program

variable (p : Program) (owner : Owner) (id : ScopeId)

@[simp] theorem setBody_depth : (p.setBody owner id).depth = p.depth := by
  cases owner <;> rfl

@[simp] theorem setBody_globals : (p.setBody owner id).globals = p.globals := by
  cases owner <;> rfl

@[simp] theorem setBody_defines : (p.setBody owner id).defines = p.defines := by
  cases owner <;> rfl

@[simp] theorem setBody_scopes : (p.setBody owner id).scopes = p.scopes := by
  cases owner <;> rfl

@[simp] theorem setBody_pools : (p.setBody owner id).pools = p.pools := by
  cases owner <;> rfl

@[simp] theorem setBody_anonymous (depth : Nat) :
    (p.setBody owner id).anonymous depth = p.anonymous depth := by
  rw [anonymous, setBody_pools, anonymous]

@[simp] theorem setBody_layers : (p.setBody owner id).layers = p.layers := by
  cases owner <;> rfl

end Program

private theorem Callable.Sound.setBody {depth scopes : Nat} {c : Callable} {id : ScopeId}
    (h : c.Sound depth scopes) (hid : id < scopes) :
    ({ c with body := some id } : Callable).Sound depth scopes :=
  ⟨h.isWord, h.depth_le, h.refCount_le, fun heq ↦ by cases heq; exact hid⟩

private theorem sound_setBody {t : Table Callable} {depth scopes : Nat} {name : String}
    {id : ScopeId} (h : ∀ c ∈ t.values, c.Sound depth scopes) (hid : id < scopes) :
    ∀ c ∈ (Layer.setBody t name id).values, c.Sound depth scopes := by
  intro c hc
  obtain ⟨other, hother⟩ := Table.mem_values_iff.1 hc
  rw [Layer.get?_setBody] at hother
  split at hother
  · obtain ⟨old, hold, rfl⟩ := Option.map_eq_some_iff.1 hother
    exact (h old (Table.mem_values_iff.2 ⟨other, hold⟩)).setBody hid
  · exact h c (Table.mem_values_iff.2 ⟨other, hother⟩)

theorem Program.Sound.setBody {p : Program} (h : p.Sound) {owner : Owner} {id : ScopeId}
    (hid : id < p.scopes.size) : (p.setBody owner id).Sound := by
  cases owner with
  | main =>
    refine { h with main := fun hc ↦ ?_ }
    obtain ⟨old, hold, rfl⟩ := Option.map_eq_some_iff.1 hc
    exact (h.main hold).setBody hid
  | script name =>
    refine { h with scripts := sound_setBody h.scripts hid, main_not_script := ?_ }
    show (Layer.setBody p.scripts name id).get? mainName = none
    rw [Layer.get?_setBody, h.main_not_script]
    simp
  | function name => exact { h with functions := sound_setBody h.functions hid }

namespace Layer

/-- The three loops over functions, scripts and `main` as one. -/
def lowerAll (l : Layer) : List (Owner × Block) → EStateM Problem Program Unit
  | [] => pure ()
  | (owner, body) :: rest => do
    let id ← lowerBody l owner body
    modify (·.setBody owner id)
    l.lowerAll rest

theorem lowerFunctions_eq (l : Layer) (bodies : List (String × Block)) :
    l.lowerFunctions bodies = l.lowerAll
      (bodies.map fun (name, body) ↦ (.function name, body)) := by
  induction bodies with
  | nil => rfl
  | cons entry rest ih =>
    rw [lowerFunctions, ih]
    rfl

theorem lowerScripts_eq (l : Layer) (bodies : List (String × Block)) :
    l.lowerScripts bodies = l.lowerAll (bodies.map fun (name, body) ↦ (.script name, body)) := by
  induction bodies with
  | nil => rfl
  | cons entry rest ih =>
    rw [lowerScripts, ih]
    rfl

theorem lowerMain_eq (l : Layer) (body : Option Block) :
    l.lowerMain body = l.lowerAll (body.toList.map fun body ↦ (.main, body)) := by
  cases body <;> rfl

variable {l : Layer}

theorem keeps_lowerAll (hl : 0 < l.depth) (bodies : List (Owner × Block)) (p : Program) :
    l.Keeps p (after (l.lowerAll bodies) p) := by
  induction bodies generalizing p with
  | nil => exact id
  | cons entry rest ih =>
    obtain ⟨owner, body⟩ := entry
    refine after_bind .trans (keeps_lowerBody hl owner body p) fun id q hq ↦ ?_
    rw [after_modify_bind]
    refine Keeps.trans (fun hsound ↦ ?_) (ih _)
    -- the id that is set as the body is one of a scope that was just added
    refine ⟨hsound.1.setBody (lowerBody_lt hq), ?_⟩
    cases owner <;> exact hsound.2

/-- Compiling the items of a layer keeps a sound program, whether it succeeds or not. -/
theorem keeps_compile (hl : 0 < l.depth) {items : List Item}
    (hword : ∀ d, .callable d ∈ items → IsWord d.name) (p : Program) :
    l.Keeps p (after (l.compile items) p) := by
  refine after_bind .trans (keeps_declareAll items p hword) fun _ q _ ↦ ?_
  rw [after_modify_bind]
  refine Keeps.trans (q := { q with layers := q.layers.push (l.info items) })
    (fun hq ↦ ⟨{ hq.1 with }, hq.2⟩) ?_
  rw [after_get_bind]
  split
  · exact id
  · refine after_bind .trans (keeps_expandAll _) fun _ r _ ↦ ?_
    rw [after_get_bind, lowerFunctions_eq]
    refine after_bind .trans (keeps_lowerAll hl _ r) fun _ r' _ ↦ ?_
    rw [after_get_bind, lowerScripts_eq]
    refine after_bind .trans (keeps_lowerAll hl _ r') fun _ r'' _ ↦ ?_
    rw [lowerMain_eq]
    exact keeps_lowerAll hl _ r''

end Layer

/-! ## Sessions

A layer that failed is a step like any other. What makes a session go on is that nobody asks. -/

namespace Session

/-- What the next layer is compiled against. -/
def nextLayer (s : Session) (source : String) : Layer :=
  ⟨s.vocabulary, .ofSource source, s.program.depth + 1, s.entryFile⟩

/-- A text either has no items, and then the layer only goes one deeper, or has items, which are
compiled. -/
theorem after_compileText (s : Session) (source : String) :
    after (compileText s.vocabulary s.entryFile source) (deepen s.program) = deepen s.program ∨
      ∃ items, ReadsAs source items ∧
        after (compileText s.vocabulary s.entryFile source) (deepen s.program)
          = after ((s.nextLayer source).compile items) (deepen s.program) := by
  cases hlex : lex source with
  | error e =>
    left
    simp only [after, compileText, hlex]
  | ok ts =>
    cases hparse : parseFile source ts with
    | error e =>
      left
      simp only [after, compileText, hlex, hparse]
    | ok items =>
      right
      refine ⟨items, ⟨ts, hlex, hparse⟩, ?_⟩
      simp only [after, compileText, hlex, hparse]
      rfl

theorem program_compileLayer (s : Session) (source : String) :
    (s.compileLayer source).2.program
      = after (compileText s.vocabulary s.entryFile source) (deepen s.program) := by
  rw [compileLayer]
  split
  next h => rw [after_of_ok h]
  next h => rw [after_of_error h]

theorem settings_compileLayer (s : Session) (source : String) :
    (s.compileLayer source).2.vocabulary = s.vocabulary ∧
      (s.compileLayer source).2.entryFile = s.entryFile := by
  rw [compileLayer]
  split
  · exact ⟨rfl, rfl⟩
  · exact ⟨rfl, rfl⟩

/-- A layer that is accepted is one that reads as items which compile. -/
theorem compileLayer_ok {s s' : Session} {source : String} {depth : Nat}
    (h : s.compileLayer source = (.ok depth, s')) :
    depth = (s.nextLayer source).depth ∧ s'.vocabulary = s.vocabulary ∧
      ∃ items, ReadsAs source items ∧
        (s.nextLayer source).compile items (deepen s.program) = .ok () s'.program := by
  rw [compileLayer] at h
  split at h
  next u p hcompile =>
    cases h
    refine ⟨rfl, rfl, ?_⟩
    rw [compileText] at hcompile
    dsimp only at hcompile
    split at hcompile
    · contradiction
    next ts hlex =>
      split at hcompile
      · contradiction
      next items hparse => exact ⟨items, ⟨ts, hlex, hparse⟩, hcompile⟩
  next => cases h

/-- The sessions that come out of compiling layers one after the other, accepted or not. -/
inductive Reachable : Session → Prop
  | new (vocabulary : Vocabulary) (entryFile : Option String) :
    Reachable (.new vocabulary entryFile)
  | layer {s : Session} (h : Reachable s) (source : String) : Reachable (s.compileLayer source).2

theorem Reachable.next {s s' : Session} {source : String} {depth : Nat} (hs : s.Reachable)
    (h : s.compileLayer source = (.ok depth, s')) : s'.Reachable := by
  have hlayer := hs.layer source
  rwa [h] at hlayer

/-- A layer, accepted or not, goes one deeper and leaves a sound program. -/
theorem keeps_compileLayer {s : Session} (hs : s.program.Sound) (source : String) :
    (s.compileLayer source).2.program.Sound ∧
      (s.compileLayer source).2.program.depth = s.program.depth + 1 := by
  rw [program_compileLayer]
  rcases after_compileText s source with h | ⟨items, hitems, h⟩
  · rw [h]
    exact ⟨hs.deepen, rfl⟩
  · rw [h]
    refine Layer.keeps_compile (l := s.nextLayer source) (Nat.succ_pos _) (fun d hd ↦ ?_) _
      ⟨hs.deepen, rfl⟩
    exact hitems.ordered.isWord hd

/-- Every program a session reaches is sound. -/
theorem Reachable.sound {s : Session} (h : s.Reachable) : s.program.Sound := by
  induction h with
  | new vocabulary entryFile => exact Program.sound_empty
  | layer _ source ih => exact (keeps_compileLayer ih source).1

end Session

/-! ## A session to look at -/

namespace Sample

def vocabulary : Vocabulary where
  commands := .ofList (["Print", "Loopback", "Return", "Loop", "If", "CreateVariable",
    "SetVariable", "CallFn"].mapIdx fun i name ↦ (name, ⟨name, UInt16.ofNat i, ["value"]⟩))
  globals := .empty

/-- A layer with one of everything that lowering has to keep apart: a global, a definition, a
reference parameter, a variable used in inner blocks, and branches inside a loop. -/
def source : String :=
  "global g
#define LIMIT g + 3
fn add(&r, n) \x7b r += n \x7d
script main() \x7b
  let x = 1
  loop \x7b if x > LIMIT \x7b break \x7d else \x7b add(x, LIMIT) \x7d \x7d
\x7d"

def start : Session :=
  .new vocabulary none

theorem reachable_start : start.Reachable :=
  .new vocabulary none

/-- A layer that is accepted when it is tried is accepted. -/
theorem accepted_of_fst {answer : Except Problem Nat × Session} {depth : Nat}
    (h : answer.1.toOption = some depth) : answer = (.ok depth, answer.2) := by
  obtain ⟨result, s⟩ := answer
  cases result with
  | ok d =>
    cases h
    rfl
  | error e => contradiction

theorem accepted_of_toOption (source : String)
    (h : (start.compileLayer source).1.toOption = some 1) :
    ∃ s, start.compileLayer source = (.ok 1, s) :=
  ⟨_, accepted_of_fst h⟩

/-- Whether an instruction calls the function with the first slot. -/
def callsFirst (i : Instruction) : Bool :=
  i.args.any fun
    | .call .function 0 "add" _ => true
    | _ => false

/-- The layer is accepted and has one global and three anonymous scopes, and the last one of these
has two instructions, one of them with the call of the function. -/
theorem compiles : (start.compileLayer source).1.toOption = some 1 ∧
    (start.compileLayer source).2.program.globals.names = ["g"] ∧
    (start.compileLayer source).2.program.anonymous 1 = #[2, 3, 4] ∧
    ((start.compileLayer source).2.program.scope? 4).map (fun t ↦
      (t.depth, t.instructions.size, t.instructions.toList.any callsFirst))
      = some (1, 2, true) := by
  decide +kernel

theorem accepted : ∃ s, start.compileLayer source = (.ok 1, s) :=
  accepted_of_toOption source compiles.1

end Sample

end CharacterScript
