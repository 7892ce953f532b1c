import CharacterScript.Proofs.Interface.Expanding
import CharacterScript.Proofs.Lowering.Bodies
import CharacterScript.Proofs.Relocation.Lowering

/-!
# Compiling a layer that is written at other places

A layer is compiled twice, from items that are the same up to places and what was written out in
their bodies (`Block.Inlined`). Every stage agrees: the items declare the same, the definitions are
expanded to the same, the bodies to lower are the same in the same order, and lowering one adds the
same code. So the second layer is accepted when the first is, and leaves the same program up to
positions (`Layer.exists_compile_moved`).

## Where definitions are seen

Code looks up definitions by offset. Two texts with the same items in the same order have the
definitions of the layer at corresponding offsets, so from corresponding places the same ones are
seen. That is the one place where offsets matter, and it is a condition on the two texts
(`Offsets`), not on the trees.
-/

namespace CharacterScript

open Running

/-! ## Definitions -/

/-- Of the definitions in a table, expanding looks at the names, the texts and what has been
expanded. -/
theorem Expansion.indistinct_alike {R : Define → Define → Prop}
    (htext : ∀ {d e}, R d e → e.text = d.text ∧ e.expansion = d.expansion)
    (hnote : ∀ {d e} x, R d e → R { d with expansion := some x } { e with expansion := some x }) :
    Indistinct (Table.Alike R) where
  size h := h.size
  at? := by
    intro t u h i
    obtain hnone | ⟨name, d, e, hd, he, hR⟩ := h.at? i
    · exact .inl hnone
    · exact .inr ⟨name, d, e, hd, he, (htext hR).1.symm, (htext hR).2.symm⟩
  note := by
    intro t u h _ _ _ e _ i
    exact h.modifyAt i fun _ _ hR ↦ hnote e hR

theorem Define.indistinct_moved (top : Nat) (place : Offsets) :
    Expansion.Indistinct (Table.Alike (Define.Moved top place)) :=
  Expansion.indistinct_alike (fun h ↦ ⟨h.text, h.expansion⟩) fun _ h ↦ { h with expansion := rfl }

theorem Program.Moved.agree_expandAll {top : Nat} {place : Offsets} {p q : Program}
    (h : p.Moved top place q) : Agree (Table.Alike (Define.Moved top place)) Eq
      (Expansion.expandAll p.defines) (Expansion.expandAll q.defines) := by
  have hreset : (p.defines.map Define.reset).Alike (Define.Moved top place)
      (q.defines.map Define.reset) :=
    h.defines.map fun _ _ hmoved ↦ { hmoved with expansion := rfl }
  exact Expansion.agree_expandAll_of_reset (Define.indistinct_moved top place) hreset

theorem Layer.matches_expandAll_moved (top : Nat) (place : Offsets) :
    Matches (Program.Moved top place) Eq (onDefines Expansion.expandAll)
      (onDefines Expansion.expandAll) := by
  intro p q h
  have hagree := h.agree_expandAll
  rw [onDefines, onDefines]
  cases hp : Expansion.expandAll p.defines with
  | ok u t =>
    obtain ⟨u', t', hq, -, ht⟩ := hagree.ok_of_ok hp
    rw [hq]
    exact ⟨rfl, { h with defines := ht }⟩
  | error e t =>
    obtain ⟨e', t', hq, hcode⟩ := hagree.error_of_error hp
    rw [hq]
    exact hcode

/-! ## Bodies

A body is lowered in the environment its callable gives it, and the callables have the same
parameters up to positions. -/

/-- The same body, in which definitions of `t` may have been written out that all of it sees. -/
structure Block.Inlined (top : Nat) (place : Offsets) (t : Table Define) (b b' : Block) : Prop where
  /-- The places of both bodies see the same definitions. -/
  alike : ∀ r ∈ b.spans, ∀ r' ∈ b'.spans, place.Alike r.start r'.start
  /-- The trees differ only by such definitions. -/
  moves : b.Moves (.inlining t fun d ↦ ∀ r ∈ b.spans, d.visibleFrom top r.start = true) b'

namespace Program.Moved

variable {top : Nat} {place : Offsets} {p q : Program}

theorem callable? (h : p.Moved top place q) (owner : Owner) :
    Option.Rel Callable.Moved (p.callable? owner) (q.callable? owner) := by
  cases owner with
  | main => exact h.main
  | script name => exact h.scripts.get? name
  | function name => exact h.functions.get? name

theorem setBody (h : p.Moved top place q) (owner : Owner) (id : ScopeId) :
    (p.setBody owner id).Moved top place (q.setBody owner id) := by
  have htable : ∀ {t u : Table Callable}, t.Alike Callable.Moved u → ∀ name,
      (Layer.setBody t name id).Alike Callable.Moved (Layer.setBody u name id) := by
    intro t u htu name
    rw [Layer.setBody, Layer.setBody, htu.indexOf?]
    split
    · exact htu.modifyAt _ fun _ _ hc ↦ { hc with body := rfl }
    · exact htu
  cases owner with
  | main =>
    refine { h with main := ?_ }
    obtain ⟨hp, hq⟩ | ⟨c, c', hp, hq, hc⟩ := both_of_rel h.main
    · simp only [Program.setBody, hp, hq, Option.map_none]
      exact .none
    · simp only [Program.setBody, hp, hq, Option.map_some]
      exact .some { hc with body := rfl }
  | script name => exact { h with scripts := htable h.scripts name }
  | function name => exact { h with functions := htable h.functions name }

end Program.Moved

namespace Layer

variable {l l' : Layer} {place : Offsets} {t : Table Define}

/-- The same program up to positions, with the definitions `t`. -/
def Stands (l : Layer) (place : Offsets) (t : Table Define) (p q : Program) : Prop :=
  p.Moved l.depth place q ∧ p.defines = t

theorem matches_lowerBody_moved (hl : l.Same l') (owner : Owner) {b b' : Block}
    (hb : b.Inlined l.depth place t b') :
    Matches (l.Stands place t) Eq (lowerBody l owner b) (lowerBody l' owner b') := by
  rintro p q ⟨h, ht⟩
  have hsize : p.scopes.size = q.scopes.size := by
    simpa using (congrArg Array.size h.scopes).symm
  have henv : Env.Moved l.depth (Env.body l owner p) (Env.body l' owner q) := by
    refine ⟨hl, rfl, rfl, ?_, rfl, hsize, rfl⟩
    obtain ⟨hp, hq⟩ | ⟨c, c', hp, hq, hc⟩ := both_of_rel (h.callable? owner)
    · simp only [Env.body, hp, hq, Option.map_none]
    · simp only [Env.body, hp, hq, Option.map_some, Option.getD_some]
      exact hc.params.symm
  have hseen : Outlook l.depth place (fun d ↦ ∀ r ∈ b.spans, d.visibleFrom l.depth r.start = true)
      (· ∈ b.spans) (· ∈ b'.spans) :=
    ⟨fun hr hr' ↦ hb.alike _ hr _ hr', fun hd hr ↦ hd _ hr⟩
  have hstart : Work.Moved l.depth place t ⟨p.addRoot (.root l.depth owner), .root l.depth owner⟩
      ⟨q.addRoot (.root l.depth owner), .root l.depth owner⟩ := by
    refine ⟨{ h with scopes := ?_ }, ht, rfl⟩
    simp [Program.addRoot, h.scopes]
  have hmoves : Matches (Work.Moved l.depth place t) Eq (lowerStmts (Env.body l owner p) b.stmts)
      (lowerStmts (Env.body l' owner q) b'.stmts) := by
    obtain ⟨stmts, span⟩ := b
    obtain ⟨stmts', span'⟩ := b'
    cases hb.moves with
    | mk hstmts =>
      exact hstmts.matches_lower hseen (fun r hr ↦ List.mem_cons_of_mem _ hr)
        (fun r hr ↦ List.mem_cons_of_mem _ hr) henv
  refine agree_lowerBody hl.depth hsize (hmoves _ _ hstart) fun hw ↦
    ⟨rfl, { hw.program with scopes := ?_ }, hw.defines⟩
  -- the last instruction has no position, so the scopes are still alike with it
  have hscope := congrArg
    (fun s : Scope ↦ { s with instructions := s.instructions.push .loopback }) hw.scope
  rw [Array.map_setIfInBounds, Array.map_setIfInBounds, hw.program.scopes]
  exact congrArg _ hscope

/-- Bodies with one owner that are the same. -/
def SameBody (same : Block → Block → Prop) {α : Type} (x y : α × Block) : Prop :=
  x.1 = y.1 ∧ same x.2 y.2

theorem matches_lowerAll_moved (hl : l.Same l') {bs bs' : List (Owner × Block)}
    (h : List.Forall₂ (SameBody (Block.Inlined l.depth place t)) bs bs') :
    Matches (l.Stands place t) Eq (l.lowerAll bs) (l'.lowerAll bs') := by
  induction h with
  | nil => exact .pure _
  | @cons x y _ _ hxy _ ih =>
    obtain ⟨owner, b⟩ := x
    obtain ⟨owner', b'⟩ := y
    obtain ⟨rfl, hb⟩ : owner = owner' ∧ b.Inlined l.depth place t b' := hxy
    exact .bind (matches_lowerBody_moved hl owner hb) fun id ↦
      .bind (.modify fun p q hpq ↦ ⟨hpq.1.setBody owner id, by
        cases owner <;> exact hpq.2⟩) fun _ ↦ ih

/-! ## Which bodies these are -/

variable {same : Block → Block → Prop} {items items' : List Item}

theorem alike_bodies (kind : CallableKind) (h : List.Forall₂ (Item.Moves place same) items items') :
    (bodies kind items).Alike same (bodies kind items') := by
  refine List.rel_foldl ?_ Table.alike_empty h
  intro t t' ht i i' hi
  cases i with
  | directive =>
    obtain ⟨_, _, _, rfl⟩ := hi
    exact ht
  | global =>
    obtain ⟨_, rfl⟩ := hi
    exact ht
  | define =>
    obtain ⟨_, rfl, -⟩ := hi
    exact ht
  | callable d =>
    obtain ⟨d', rfl, hd⟩ := hi
    dsimp only
    rw [hd.kind, hd.name]
    split
    · exact ht.insert _ hd.body
    · exact ht

theorem forall₂_current (hl : l.Same l') {cs cs' : Table Callable}
    (hcs : cs.Alike Callable.Moved cs')
    {bs bs' : Table Block} (hbs : bs.Alike same bs') :
    List.Forall₂ (SameBody same) (l.current cs bs) (l'.current cs' bs') := by
  rw [current, current]
  refine List.rel_filterMap ?_ hcs.toList
  rintro ⟨name, c⟩ ⟨name', c'⟩ ⟨hname, hc⟩
  obtain rfl : name = name' := hname
  dsimp only
  rw [hc.depth, ← hl.depth]
  split
  · obtain ⟨hb, hb'⟩ | ⟨b, b', hb, hb', hsame⟩ := both_of_rel (hbs.get? name)
    · rw [hb, hb']
      exact .none
    · rw [hb, hb']
      exact .some ⟨rfl, hsame⟩
  · exact .none

theorem forall₂_toLower (hl : l.Same l') {p q : Program} (hpq : p.Moved l.depth place q)
    (h : List.Forall₂ (Item.Moves place same) items items') :
    List.Forall₂ (SameBody same) (l.toLower p items) (l'.toLower q items') := by
  have hmap : ∀ (f : String → Owner) {xs ys : List (String × Block)},
      List.Forall₂ (SameBody same) xs ys →
      List.Forall₂ (SameBody same) (xs.map fun entry ↦ (f entry.1, entry.2))
        (ys.map fun entry ↦ (f entry.1, entry.2)) := by
    intro f xs ys hxy
    rw [List.forall₂_map_left_iff, List.forall₂_map_right_iff]
    exact hxy.imp fun _ _ hb ↦ ⟨congrArg f hb.1, hb.2⟩
  rw [toLower, toLower]
  refine List.rel_append (List.rel_append
    (hmap .function (forall₂_current hl hpq.functions (alike_bodies _ h)))
    (hmap .script (forall₂_current hl hpq.scripts (alike_bodies _ h)))) ?_
  obtain ⟨hb, hb'⟩ | ⟨b, b', hb, hb', hsame⟩ := both_of_rel ((alike_bodies _ h).get? mainName)
  · rw [hb, hb']
    exact .nil
  · rw [hb, hb']
    exact .cons ⟨rfl, hsame⟩ .nil

/-! ## The layer

The stages are put one behind the other, with the relation between programs that each leaves. -/

theorem defines_lowerAll {bs : List (Owner × Block)} {p q : Program}
    (h : l.lowerAll bs p = .ok () q) : q.defines = p.defines := by
  induction bs generalizing p with
  | nil =>
    obtain ⟨-, rfl⟩ := pure_eq_ok.1 h
    rfl
  | cons entry bs ih =>
    obtain ⟨owner, body⟩ := entry
    rw [lowerAll] at h
    obtain ⟨id, p₁, hbody, h₁⟩ := bind_eq_ok.1 h
    obtain ⟨root, new, hafter, -⟩ := after_lowerBody l owner body p
    rw [after_of_ok hbody] at hafter
    rw [modify_bind] at h₁
    rw [ih h₁, p₁.setBody_defines owner id, hafter]
    rfl

/-- Two layers agree if the first expands its definitions to those that the bodies of the second
have written out. -/
theorem agree_compile_moved (hl : l.Same l') {p q : Program} (hpq : p.Moved l.depth place q)
    (ht : ∀ {declared defines}, l.declareAll items p = .ok () declared →
      Expansion.expandAll declared.defines = .ok () defines → defines = t)
    (h : List.Forall₂ (Item.Moves place (Block.Inlined l.depth place t)) items items') :
    Agree (Program.Moved l.depth place) Eq (l.compile items p) (l'.compile items' q) := by
  rw [compile_eq, compile_eq]
  refine (matches_declareAll_moved hl h p q hpq).bind fun _ _ declared declared' hdeclared _ _ hd ↦
    ?_
  rw [modify_bind, modify_bind, get_bind, get_bind]
  have hlayers : Program.Moved l.depth place
      { declared with layers := declared.layers.push (l.info items) }
      { declared' with layers := declared'.layers.push (l'.info items') } := { hd with }
  have hmain : declared.main.isNone ↔ declared'.main.isNone := by
    obtain ⟨hp, hq⟩ | ⟨c, c', hp, hq, -⟩ := both_of_rel hd.main
    all_goals rw [hp, hq]
    rfl
  by_cases hnone : declared.main.isNone
  · rw [if_pos hnone, if_pos (hmain.1 hnone)]
    exact rfl
  · rw [if_neg hnone, if_neg (mt hmain.2 hnone)]
    refine (matches_expandAll_moved l.depth place _ _ hlayers).bind
      fun _ _ next next' hnext _ _ hmoved ↦ ?_
    rw [get_bind, get_bind]
    have hdefines : next.defines = t := by
      rw [onDefines] at hnext
      dsimp only at hnext
      split at hnext
      next defines hdefines =>
        cases hnext
        exact ht hdeclared hdefines
      next => contradiction
    have hagree := matches_lowerAll_moved hl (forall₂_toLower hl hmoved h) next next'
      ⟨hmoved, hdefines⟩
    cases hrun : l.lowerAll (l.toLower next items) next with
    | ok u r =>
      obtain ⟨u', r', hrun', -, hr⟩ := hagree.ok_of_ok hrun
      rw [hrun']
      exact ⟨rfl, hr.1⟩
    | error e r =>
      obtain ⟨e', r', hrun', hcode⟩ := hagree.error_of_error hrun
      rw [hrun']
      exact hcode

/-- A layer whose items were moved, with definitions written out in bodies that see them, is
accepted when the layer itself is, and leaves the same program up to positions. -/
theorem exists_compile_moved (hl : l.Same l') {p q r : Program} (hpq : p.Moved l.depth place q)
    (hr : l.compile items p = .ok () r)
    (h : List.Forall₂ (Item.Moves place (Block.Inlined l.depth place r.defines)) items items') :
    ∃ r', l'.compile items' q = .ok () r' ∧ r.Moved l.depth place r' := by
  obtain ⟨declared, defines, hdeclared, hdefines, hlower⟩ := compile_stages hr
  have ht : ∀ {d t}, l.declareAll items p = .ok () d → Expansion.expandAll d.defines = .ok () t →
      t = r.defines := by
    intro d t hd ht
    cases hdeclared.symm.trans hd
    cases hdefines.symm.trans ht
    exact (defines_lowerAll hlower).symm
  obtain ⟨_, r', hr', -, hmoved⟩ := (agree_compile_moved hl hpq ht h).ok_of_ok hr
  exact ⟨r', hr', hmoved⟩

end Layer

end CharacterScript
