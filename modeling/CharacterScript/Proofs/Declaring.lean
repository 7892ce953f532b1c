import CharacterScript.Layer.Declare
import CharacterScript.Proofs.Computation
import CharacterScript.Proofs.TableLaws

/-!
# What declaring an item does

Declaring an item either puts one entry into one table or, where it fails, leaves the program as it
was. `Layer.Declared` lists the ways in which it can succeed, each with the question that had to be
answered for it; everything later proofs need about the declarations of a layer is read off from
there.

## What is declared

A layer declares each callable once. So after all items have been declared, the callables of the
depth of the layer are exactly those the items give bodies for, and likewise its definitions
(`declareAll_gives`).

## Inversion

`Layer.Declared` has one constructor for each way to succeed, with what was asked and what was put
in. A proof about declarations is a case analysis on it, and does not look at how the question was
asked. The other half is that a failure changes nothing, which is one lemma for all kinds of
items.
-/

namespace CharacterScript

open Running

namespace Layer

/-! ## Questions

A question is answered from the program without changing it. What the answer says of the new entry
is kept as `New`, since an entry is looked at long after it was made. -/

theorem inspect_eq_ok {α : Type} {look : Program → Except Problem α} {p q : Program} {a : α} :
    inspect look p = .ok a q ↔ look p = .ok a ∧ q = p := by
  rw [inspect]
  cases look p with
  | ok b =>
    simp only [EStateM.Result.ok.injEq, Except.ok.injEq]
    exact and_congr_right fun _ ↦ eq_comm
  | error e => simp

theorem inspect_error {α : Type} {look : Program → Except Problem α} {p q : Program} {e : Problem}
    (h : inspect look p = .error e q) : q = p := by
  rw [inspect] at h
  cases hlook : look p with
  | ok b => simp [hlook] at h
  | error e' =>
    rw [hlook] at h
    cases h
    rfl

/-- A name that may be declared is not yet declared in this layer. -/
theorem checkName_fresh {l : Layer} {p : Program} {name : String} {kind : Program.Kind}
    {pos : Position} {ident : Identifier} {depth : Nat}
    (h : l.checkName p name kind pos (some (ident, depth)) = .ok ()) : depth ≠ l.depth := by
  rw [checkName] at h
  split at h
  · contradiction
  · split at h
    · contradiction
    · split at h
      · contradiction
      · assumption

theorem length_newParams {l : Layer} {p : Program} {params : List Param} :
    ∀ {done result : List Identifier}, l.newParams p done params = .ok result →
      result.length = done.length + params.length := by
  induction params with
  | nil =>
    intro done result h
    rw [newParams] at h
    cases h
    simp
  | cons param rest ih =>
    intro done result h
    rw [newParams] at h
    split at h
    · contradiction
    · split at h
      · contradiction
      · rw [ih h, List.length_cons, List.length_cons]
        omega

theorem refCount_le (d : CallableDecl) : d.refCount ≤ d.params.length :=
  (List.takeWhile_prefix _).length_le

/-- What is known of a callable that was just declared. -/
structure New (l : Layer) (d : CallableDecl) (c : Callable) : Prop where
  /-- It has the name that was written. -/
  name : c.ident.name = d.name
  /-- It belongs to the layer. -/
  depth : c.depth = l.depth
  /-- Its code has not been lowered. -/
  body : c.body = none
  /-- It has no more references than parameters. -/
  refCount : c.refCount.toNat ≤ c.params.length

theorem newCallable_new {l : Layer} {kind : IdentKind} {d : CallableDecl} {p : Program}
    {c : Callable} (h : l.newCallable kind d p = .ok c) : l.New d c := by
  rw [newCallable] at h
  obtain ⟨params, hparams, h₁⟩ := exceptBind_eq_ok.1 h
  split at h₁
  · contradiction
  · rename_i hsmall
    cases h₁
    have hlength : params.length = d.params.length := by
      rw [length_newParams hparams, List.length_nil, Nat.zero_add]
    have hle := refCount_le d
    refine ⟨rfl, rfl, rfl, ?_⟩
    show (UInt8.ofNat d.refCount).toNat ≤ params.length
    rw [UInt8.toNat_ofNat_of_lt' (show d.refCount < 256 by omega)]
    omega

theorem newScript_new {l : Layer} {d : CallableDecl} {p : Program} {c : Callable}
    (h : l.newScript d p = .ok c) :
    l.New d c ∧ ∀ old, (if d.name == mainName then p.main else p.scripts.get? d.name) = some old →
      old.depth ≠ l.depth := by
  rw [newScript] at h
  obtain ⟨⟨⟩, hcheck, h₁⟩ := exceptBind_eq_ok.1 h
  refine ⟨newCallable_new h₁, fun old hold ↦ ?_⟩
  rw [hold] at hcheck
  exact checkName_fresh hcheck

theorem newFunction_new {l : Layer} {d : CallableDecl} {p : Program} {c : Callable}
    (h : l.newFunction d p = .ok c) :
    l.New d c ∧ ∀ old, p.functions.get? d.name = some old → old.depth ≠ l.depth := by
  rw [newFunction] at h
  dsimp only at h
  split at h
  · contradiction
  · obtain ⟨⟨⟩, hcheck, h₁⟩ := exceptBind_eq_ok.1 h
    refine ⟨newCallable_new h₁, fun old hold ↦ ?_⟩
    rw [hold] at hcheck
    exact checkName_fresh hcheck

/-- A global is put in only if there is none with its name. -/
theorem newGlobal_eq_ok {l : Layer} {name : String} {span : Span} {p : Program} {g : GlobalVar}
    (h : l.newGlobal name span p = .ok (some g)) :
    p.globals.get? name = none ∧ g = ⟨⟨.global, name, l.pos span⟩, l.depth⟩ := by
  rw [newGlobal] at h
  obtain ⟨-, -, h₁⟩ := exceptBind_eq_ok.1 h
  cases hget : p.globals.get? name with
  | some old =>
    rw [hget] at h₁
    cases h₁
  | none =>
    rw [hget] at h₁
    cases h₁
    exact ⟨rfl, rfl⟩

theorem newDefine_eq_ok {l : Layer} {d : DefineDecl} {p : Program} {e : Define}
    (h : l.newDefine d p = .ok e) :
    e = ⟨⟨.define, d.name, l.pos d.nameSpan⟩, l.depth, d.span.start, d.text, none⟩ := by
  rw [newDefine] at h
  obtain ⟨-, -, h₁⟩ := exceptBind_eq_ok.1 h
  cases h₁
  rfl

/-! ## Items -/

/-- The ways in which an item is declared: what the program was asked, and what it becomes. -/
inductive Declared (l : Layer) (p : Program) : Item → Program → Prop
  | directive {d path span} : l.Declared p (.directive d path span) p
  /-- A global that an earlier layer has. -/
  | seen {name span} : l.Declared p (.global name span) p
  | global {name span g} (h : l.newGlobal name span p = .ok (some g)) :
    l.Declared p (.global name span) { p with globals := p.globals.insert name g }
  | define {d e} (h : l.newDefine d p = .ok e) :
    l.Declared p (.define d) { p with defines := p.defines.insert d.name e }
  | main {d c} (hkind : d.kind = .script) (hname : d.name = mainName)
    (h : l.newScript d p = .ok c) : l.Declared p (.callable d) { p with main := some c }
  | script {d c} (hkind : d.kind = .script) (hname : d.name ≠ mainName)
    (h : l.newScript d p = .ok c) :
    l.Declared p (.callable d) { p with scripts := p.scripts.insert d.name c }
  | function {d c} (hkind : d.kind = .function) (h : l.newFunction d p = .ok c) :
    l.Declared p (.callable d) { p with functions := p.functions.insert d.name c }

theorem declareItem_declared {l : Layer} {i : Item} {p q : Program}
    (h : l.declareItem i p = .ok () q) : l.Declared p i q := by
  cases i with
  | directive d path span =>
    obtain ⟨-, rfl⟩ := pure_eq_ok.1 h
    exact .directive
  | global name span =>
    obtain ⟨g, t, hg, h₁⟩ := bind_eq_ok.1 h
    obtain ⟨hnew, rfl⟩ := inspect_eq_ok.1 hg
    cases g with
    | none =>
      obtain ⟨-, rfl⟩ := pure_eq_ok.1 h₁
      exact .seen
    | some g =>
      cases h₁
      exact .global hnew
  | define d =>
    obtain ⟨e, t, he, h₁⟩ := bind_eq_ok.1 h
    obtain ⟨hnew, rfl⟩ := inspect_eq_ok.1 he
    cases h₁
    exact .define hnew
  | callable d =>
    rw [declareItem] at h
    cases hkind : d.kind with
    | script =>
      rw [hkind] at h
      obtain ⟨c, t, hc, h₁⟩ := bind_eq_ok.1 h
      obtain ⟨hnew, rfl⟩ := inspect_eq_ok.1 hc
      split at h₁
      next hname =>
        cases h₁
        exact .main hkind (beq_iff_eq.1 hname) hnew
      next hname =>
        cases h₁
        exact .script hkind (fun heq ↦ hname (beq_iff_eq.2 heq)) hnew
    | function =>
      rw [hkind] at h
      obtain ⟨c, t, hc, h₁⟩ := bind_eq_ok.1 h
      obtain ⟨hnew, rfl⟩ := inspect_eq_ok.1 hc
      cases h₁
      exact .function hkind hnew

/-- A question that is followed by a step which cannot fail leaves the program alone if it fails. -/
private theorem inspect_bind_error {α β : Type} {look : Program → Except Problem α}
    {f : α → EStateM Problem Program β} {p q : Program} {e : Problem}
    (hf : ∀ a e t, f a p ≠ .error e t) (h : (inspect look >>= f) p = .error e q) : q = p := by
  cases hlook : inspect look p with
  | ok a t =>
    obtain ⟨-, rfl⟩ := inspect_eq_ok.1 hlook
    rw [bind_of_ok hlook] at h
    exact absurd h (hf a e q)
  | error e' t =>
    rw [bind_of_error hlook] at h
    cases h
    exact inspect_error hlook

/-- An item that cannot be declared leaves the program as it was. -/
theorem declareItem_error {l : Layer} {i : Item} {p q : Program} {e : Problem}
    (h : l.declareItem i p = .error e q) : q = p := by
  cases i with
  | directive d path span => contradiction
  | global name span =>
    refine inspect_bind_error (fun g e t ↦ ?_) h
    cases g with
    | none => exact nofun
    | some g => exact modify_ne_error
  | define d => exact inspect_bind_error (fun _ _ _ ↦ modify_ne_error) h
  | callable d =>
    rw [declareItem] at h
    cases hkind : d.kind with
    | script =>
      rw [hkind] at h
      refine inspect_bind_error (fun c e t ↦ ?_) h
      split <;> exact modify_ne_error
    | function =>
      rw [hkind] at h
      exact inspect_bind_error (fun _ _ _ ↦ modify_ne_error) h

end Layer

/-! ## All items

The owners of bodies are listed in the order of the items. A name that is declared a second time
in the layer is refused, so the list has none of them twice, and the callables of the depth of the
layer are those in it. -/

/-- The callable that a declaration is about. -/
def CallableDecl.owner (d : CallableDecl) : Owner :=
  match d.kind with
  | .script => if d.name = mainName then .main else .script d.name
  | .function => .function d.name

namespace CallableDecl

variable {d : CallableDecl} {name : String}

theorem owner_eq_function : d.owner = .function name ↔ d.kind = .function ∧ d.name = name := by
  rw [owner]
  cases d.kind with
  | function => simp
  | script => by_cases hmain : d.name = mainName <;> simp [hmain]

theorem owner_eq_script :
    d.owner = .script name ↔ d.kind = .script ∧ d.name = name ∧ name ≠ mainName := by
  rw [owner]
  cases d.kind with
  | function => simp
  | script =>
    dsimp only
    split
    next hmain =>
      refine ⟨fun h ↦ by contradiction, ?_⟩
      rintro ⟨-, rfl, hne⟩
      exact absurd hmain hne
    next hmain =>
      refine ⟨?_, ?_⟩
      · rintro ⟨⟩
        exact ⟨rfl, rfl, hmain⟩
      · rintro ⟨-, rfl, -⟩
        rfl

theorem owner_eq_main : d.owner = .main ↔ d.kind = .script ∧ d.name = mainName := by
  rw [owner]
  cases d.kind with
  | function => simp
  | script => by_cases hmain : d.name = mainName <;> simp [hmain]

end CallableDecl

/-- The bodies that items give, each for its callable. -/
def bodiesOf (items : List Item) : List (Owner × Block) :=
  items.filterMap fun
    | .callable d => some (d.owner, d.body)
    | _ => none

theorem mem_bodiesOf {items : List Item} {owner : Owner} {body : Block} :
    (owner, body) ∈ bodiesOf items ↔
      ∃ d, .callable d ∈ items ∧ d.owner = owner ∧ d.body = body := by
  rw [bodiesOf, List.mem_filterMap]
  constructor
  · rintro ⟨i, hi, hbody⟩
    cases i with
    | callable d =>
      obtain ⟨howner, hbody⟩ := Prod.mk.inj (Option.some.inj hbody)
      exact ⟨d, hi, howner, hbody⟩
    | directive | global | define => contradiction
  · rintro ⟨d, hd, rfl, rfl⟩
    exact ⟨.callable d, hd, rfl⟩

namespace Layer

variable {l : Layer} {p q : Program}

/-- Declaring a callable gives one of this layer, which was not there before, and no other. -/
theorem Declared.callable {d : CallableDecl} (h : l.Declared p (.callable d) q) :
    (∀ old, p.callable? d.owner = some old → old.depth ≠ l.depth) ∧
      ∃ c, l.New d c ∧ ∀ owner,
        q.callable? owner = if owner = d.owner then some c else p.callable? owner := by
  cases h with
  | main hkind hname hnew =>
    obtain ⟨hc, hfresh⟩ := newScript_new hnew
    have howner : d.owner = .main := by
      rw [CallableDecl.owner, hkind]
      exact if_pos hname
    rw [howner]
    refine ⟨fun old hold ↦ hfresh old (by rw [if_pos (beq_iff_eq.2 hname)]; exact hold), _, hc,
      fun owner ↦ ?_⟩
    cases owner <;> simp [Program.callable?]
  | script hkind hname hnew =>
    obtain ⟨hc, hfresh⟩ := newScript_new hnew
    have howner : d.owner = .script d.name := by
      rw [CallableDecl.owner, hkind]
      exact if_neg hname
    rw [howner]
    refine ⟨fun old hold ↦ hfresh old (by rw [if_neg (by simpa using hname)]; exact hold), _, hc,
      fun owner ↦ ?_⟩
    cases owner <;> simp [Program.callable?, Table.get?_insert]
  | function hkind hnew =>
    obtain ⟨hc, hfresh⟩ := newFunction_new hnew
    have howner : d.owner = .function d.name := by
      rw [CallableDecl.owner, hkind]
    rw [howner]
    refine ⟨hfresh, _, hc, fun owner ↦ ?_⟩
    cases owner <;> simp [Program.callable?, Table.get?_insert]

/-- Declaring anything else leaves the callables alone. -/
theorem Declared.callable?_eq {i : Item} (h : l.Declared p i q) (hi : ∀ d, i ≠ .callable d)
    (owner : Owner) : q.callable? owner = p.callable? owner := by
  cases h with
  | main | script | function => exact absurd rfl (hi _)
  | directive | seen | global | define => rfl

/-- Each callable is as it was or is the one that the item declares. -/
theorem Declared.callable?_cases {i : Item} (h : l.Declared p i q) (owner : Owner) :
    q.callable? owner = p.callable? owner ∨
      ∃ d c, i = .callable d ∧ d.owner = owner ∧ l.New d c ∧ q.callable? owner = some c := by
  by_cases hi : ∃ d, i = .callable d
  · obtain ⟨d, rfl⟩ := hi
    obtain ⟨-, c, hnew, hq⟩ := h.callable
    rw [hq]
    by_cases heq : owner = d.owner
    · rw [if_pos heq]
      exact .inr ⟨d, c, rfl, heq.symm, hnew, rfl⟩
    · rw [if_neg heq]
      exact .inl rfl
  · exact .inl (h.callable?_eq (fun d hd ↦ hi ⟨d, hd⟩) owner)

/-- At most one global is put in, under a name that was free. -/
theorem Declared.globals_cases {i : Item} (h : l.Declared p i q) :
    q.globals = p.globals ∨ ∃ name pos, p.globals.get? name = none ∧
      q.globals = p.globals.insert name ⟨⟨.global, name, pos⟩, l.depth⟩ := by
  cases h with
  | global hnew =>
    obtain ⟨hfree, rfl⟩ := newGlobal_eq_ok hnew
    exact .inr ⟨_, _, hfree, rfl⟩
  | directive | seen | define | main | script | function => exact .inl rfl

/-- At most one definition is put in. -/
theorem Declared.defines_cases {i : Item} (h : l.Declared p i q) :
    q.defines = p.defines ∨ ∃ (d : DefineDecl) (e : Define), e.ident.name = d.name ∧
      q.defines = p.defines.insert d.name e := by
  cases h with
  | define hnew =>
    obtain rfl := newDefine_eq_ok hnew
    exact .inr ⟨_, _, rfl, rfl⟩
  | directive | seen | global | main | script | function => exact .inl rfl

/-- What the items declared so far have made of a program: the callables of this layer are those
they give bodies for, each once, and its definitions are theirs. -/
structure Gives (l : Layer) (items : List Item) (p : Program) : Prop where
  /-- No callable has two bodies. -/
  owners : ((bodiesOf items).map (·.1)).Nodup
  /-- A callable is one of this layer just if the items give it a body. -/
  callables : ∀ owner, (∃ c, p.callable? owner = some c ∧ c.depth = l.depth) ↔
    ∃ body, (owner, body) ∈ bodiesOf items
  /-- A definition of this layer stands where one of the items does. -/
  defines : ∀ name e, p.defines.get? name = some e → e.depth = l.depth →
    ∃ d, .define d ∈ items ∧ d.span.start = e.offset

theorem Gives.declared {done : List Item} {i : Item} (h : l.Gives done p) (hi : l.Declared p i q) :
    l.Gives (done ++ [i]) q := by
  have hbodies : bodiesOf (done ++ [i]) = bodiesOf done ++ bodiesOf [i] := List.filterMap_append
  have hold : ∀ {name e}, p.defines.get? name = some e → e.depth = l.depth →
      ∃ d, .define d ∈ done ++ [i] ∧ d.span.start = e.offset := fun he hdepth ↦ by
    obtain ⟨d, hd, hoffset⟩ := h.defines _ _ he hdepth
    exact ⟨d, List.mem_append_left _ hd, hoffset⟩
  by_cases hcallable : ∃ d, i = .callable d
  · obtain ⟨d, rfl⟩ := hcallable
    obtain ⟨hfresh, c, hnew, hq⟩ := hi.callable
    have hsingle : bodiesOf [.callable d] = [(d.owner, d.body)] := rfl
    -- the name was checked, so no earlier item of the layer declares this callable
    have hnotin : ∀ body, (d.owner, body) ∉ bodiesOf done := fun body hbody ↦ by
      obtain ⟨old, hold, hdepth⟩ := (h.callables d.owner).2 ⟨body, hbody⟩
      exact hfresh old hold hdepth
    refine ⟨?_, fun owner ↦ ?_, ?_⟩
    · rw [hbodies, hsingle, List.map_append, List.nodup_append]
      refine ⟨h.owners, by simp, ?_⟩
      rintro owner howner _ hmem rfl
      obtain ⟨⟨_, body⟩, hbody, rfl⟩ := List.mem_map.1 howner
      obtain rfl : _ = d.owner := by simpa using hmem
      exact hnotin body hbody
    · rw [hq, hbodies, hsingle]
      by_cases heq : owner = d.owner
      · subst heq
        simp [hnew.depth]
      · rw [if_neg heq, h.callables owner]
        simp [heq]
    -- declaring a callable leaves the definitions alone
    · have hdefines : q.defines = p.defines := by cases hi <;> rfl
      intro name e he hdepth
      rw [hdefines] at he
      exact hold he hdepth
  -- all other items leave the callables alone
  · have hne : ∀ d, i ≠ .callable d := fun d hd ↦ hcallable ⟨d, hd⟩
    have hsingle : bodiesOf [i] = [] := by
      cases i with
      | callable d => exact absurd rfl (hne d)
      | directive | global | define => rfl
    refine ⟨?_, fun owner ↦ ?_, ?_⟩
    · rw [hbodies, hsingle, List.append_nil]
      exact h.owners
    · rw [hi.callable?_eq hne, hbodies, hsingle, List.append_nil]
      exact h.callables owner
    · intro name e he hdepth
      cases hi with
      | define hnew =>
        rw [Table.get?_insert] at he
        split at he
        · cases he
          obtain rfl := newDefine_eq_ok hnew
          exact ⟨_, List.mem_append_right _ List.mem_cons_self, rfl⟩
        · exact hold he hdepth
      | directive | seen | global => exact hold he hdepth
      | main | script | function => exact absurd rfl (hne _)

theorem declareAll_gives {items done : List Item} {p q : Program} (hp : l.Gives done p)
    (h : l.declareAll items p = .ok () q) : l.Gives (done ++ items) q := by
  -- the items move one by one from those to come to those that are done
  induction items generalizing done p with
  | nil =>
    obtain ⟨-, rfl⟩ := pure_eq_ok.1 h
    rw [List.append_nil]
    exact hp
  | cons i items ih =>
    obtain ⟨⟨⟩, t, hi, hrest⟩ := bind_eq_ok.1 h
    rw [List.append_cons]
    exact ih (hp.declared (declareItem_declared hi)) hrest

/-- What a name is defined as was there before or is an item. -/
theorem defines_declareAll_cases {items : List Item} {p q : Program}
    (h : l.declareAll items p = .ok () q) {name : String} {e : Define}
    (he : q.defines.get? name = some e) : p.defines.get? name = some e ∨
      ∃ d, .define d ∈ items ∧ d.name = name ∧ e.depth = l.depth ∧ e.offset = d.span.start := by
  induction items generalizing p with
  | nil =>
    obtain ⟨-, rfl⟩ := pure_eq_ok.1 h
    exact .inl he
  | cons i items ih =>
    obtain ⟨⟨⟩, t, hi, hrest⟩ := bind_eq_ok.1 h
    obtain hold | ⟨d, hd, hrest⟩ := ih hrest
    · cases declareItem_declared hi with
      | define hnew =>
        rw [Table.get?_insert] at hold
        split at hold
        next hname =>
          cases hold
          obtain rfl := newDefine_eq_ok hnew
          exact .inr ⟨_, List.mem_cons_self, hname.symm, rfl, rfl⟩
        next => exact .inl hold
      | directive | seen | global | main | script | function => exact .inl hold
    · exact .inr ⟨d, List.mem_cons_of_mem _ hd, hrest⟩

/-- Declaring adds no scopes. -/
theorem scopes_declareAll {items : List Item} {p q : Program}
    (h : l.declareAll items p = .ok () q) : q.scopes = p.scopes := by
  induction items generalizing p with
  | nil =>
    obtain ⟨-, rfl⟩ := pure_eq_ok.1 h
    rfl
  | cons i items ih =>
    obtain ⟨⟨⟩, t, hi, hrest⟩ := bind_eq_ok.1 h
    have ht : t.scopes = p.scopes := by cases declareItem_declared hi <;> rfl
    rw [ih hrest, ht]

end Layer

end CharacterScript
