import CharacterScript.Proofs.Lowering.Growth
import CharacterScript.Proofs.Reachable

/-!
# What an expression is lowered to

`Expr.Reads` relates an expression to an operand, part by part. What the parts stand for is left to
a `Reading`: which pool entry a number has, what a name or a call means. The relation itself says
nothing about how lowering works; that lowering gives related operands is `Expr.lower_reads`.

## Pools that grow

Numbers and strings are put into pools that go on growing after an expression has been lowered, and
the tables of callables change after it, too, when bodies are set. So what an operand means is said
about a finished program and a finished scope: any for which `Completes` holds, that is, which have
the names of the program at hand and whose pools start with the pools at hand.

## Readings are parameters

A rule about code is often a rule about what names and calls in it mean, and the rest of an
expression is gone through in the same way each time. With the meaning as a parameter this is done
once. One reading is what lowering itself gives (`Site.Means`); from that others follow, part by
part (`Expr.Reads.mono`).
-/

namespace CharacterScript

open Running

/-! ## Names that stay

Bodies are set while others are lowered. What a name means does not depend on them, so callables
are compared without. -/

/-- A callable without its body. -/
def Callable.bare (c : Callable) : Callable :=
  { c with body := none }

namespace Program

/-- The programs have the same names with the same meanings; only bodies of callables, scopes, pools
and layers may differ. -/
structure SameNames (p q : Program) : Prop where
  /-- The globals are the same. -/
  globals : q.globals = p.globals
  /-- The functions are the same but for their bodies. -/
  functions : q.functions.map Callable.bare = p.functions.map Callable.bare
  /-- The scripts are the same but for their bodies. -/
  scripts : q.scripts.map Callable.bare = p.scripts.map Callable.bare
  /-- So is the script a program starts with. -/
  main : q.main.map Callable.bare = p.main.map Callable.bare
  /-- The definitions are the same. -/
  defines : q.defines = p.defines

namespace SameNames

variable {p q r : Program}

theorem refl : p.SameNames p :=
  ⟨rfl, rfl, rfl, rfl, rfl⟩

theorem trans (h : p.SameNames q) (h' : q.SameNames r) : p.SameNames r :=
  ⟨h'.globals.trans h.globals, h'.functions.trans h.functions, h'.scripts.trans h.scripts,
    h'.main.trans h.main, h'.defines.trans h.defines⟩

theorem symm (h : p.SameNames q) : q.SameNames p :=
  ⟨h.globals.symm, h.functions.symm, h.scripts.symm, h.main.symm, h.defines.symm⟩

theorem grow (p : Program) (depth : Nat) (new : List Scope) : p.SameNames (p.grow depth new) :=
  ⟨rfl, rfl, rfl, rfl, rfl⟩

theorem globalIdents (h : p.SameNames q) : q.globalIdents = p.globalIdents := by
  rw [Program.globalIdents, Program.globalIdents, h.globals]

/-- Tables that agree but for bodies have at each place the same callable but for its body. -/
private theorem at?_of_bare {t u : Table Callable}
    (h : u.map Callable.bare = t.map Callable.bare) {i : Nat} {name : String} {c : Callable}
    (hc : t.at? i = some (name, c)) : ∃ c', u.at? i = some (name, c') ∧ c'.bare = c.bare := by
  have hat := congrArg (fun v ↦ v.at? i) h
  simp only [Table.at?_map, hc, Option.map_some] at hat
  obtain ⟨⟨name', c'⟩, hc', heq⟩ := Option.map_eq_some_iff.1 hat
  obtain ⟨rfl, hbare⟩ := Prod.mk.inj heq
  exact ⟨c', hc', hbare⟩

theorem function (h : p.SameNames q) {i : Nat} {name : String} {c : Callable}
    (hc : p.functions.at? i = some (name, c)) :
    ∃ c', q.functions.at? i = some (name, c') ∧ c'.bare = c.bare :=
  at?_of_bare h.functions hc

theorem script (h : p.SameNames q) {i : Nat} {name : String} {c : Callable}
    (hc : p.scripts.at? i = some (name, c)) :
    ∃ c', q.scripts.at? i = some (name, c') ∧ c'.bare = c.bare :=
  at?_of_bare h.scripts hc

theorem main_some (h : p.SameNames q) {c : Callable} (hc : p.main = some c) :
    ∃ c', q.main = some c' ∧ c'.bare = c.bare := by
  have hmain := h.main
  rw [hc, Option.map_some] at hmain
  exact Option.map_eq_some_iff.1 hmain

theorem scriptId? (h : p.SameNames q) (name : String) : q.scriptId? name = p.scriptId? name := by
  have hindex := congrArg (fun t ↦ t.indexOf? name) h.scripts
  simp only [Table.indexOf?_map] at hindex
  rw [Program.scriptId?, Program.scriptId?, hindex]

theorem callable? (h : p.SameNames q) (owner : Owner) :
    (q.callable? owner).map Callable.bare = (p.callable? owner).map Callable.bare := by
  cases owner with
  | main => exact h.main
  | script name =>
    have hget := congrArg (fun t ↦ t.get? name) h.scripts
    simp only [Table.get?_map] at hget
    exact hget
  | function name =>
    have hget := congrArg (fun t ↦ t.get? name) h.functions
    simp only [Table.get?_map] at hget
    exact hget

theorem callable_some (h : p.SameNames q) {owner : Owner} {c : Callable}
    (hc : p.callable? owner = some c) : ∃ c', q.callable? owner = some c' ∧ c'.bare = c.bare := by
  have howner := h.callable? owner
  rw [hc, Option.map_some] at howner
  exact Option.map_eq_some_iff.1 howner

end SameNames

end Program

/-! ## Calls -/

/-- The operands are as many as the callable has parameters, and those it takes by reference are
variables. -/
structure Callable.Takes (c : Callable) (args : List Operand) : Prop where
  /-- There is an operand for each parameter. -/
  count : args.length = c.params.length
  /-- A reference is given a variable. -/
  refs : ∀ i < c.refCount.toNat, ∃ slot, args[i]? = some (.var slot)

/-- The operands are as many as the command takes. -/
def Vocabulary.Command.Takes (c : Vocabulary.Command) (args : List Operand) : Prop :=
  if c.isVariadic then 1 ≤ args.length else args.length = c.arity

/-- A call by a name is a call of what has the name: its id is the place in the table, with one
added for scripts because `main` has the first, or the opcode, and it has operands that fit. -/
def Program.Calls (p : Program) (v : Vocabulary) (name : String) (target : CallTarget) (id : UInt16)
    (args : List Operand) : Prop :=
  match target with
  | .function => ∃ i c, p.functions.at? i = some (name, c) ∧ id.toNat = i ∧ c.Takes args
  | .script =>
    if name = mainName then id = 0 ∧ ∃ c, p.main = some c ∧ c.Takes args
    else ∃ i c, p.scripts.at? i = some (name, c) ∧ id.toNat = i + 1 ∧ c.Takes args
  | .builtin => ∃ c, v.command? name = some c ∧ id = c.opcode ∧ c.Takes args

/-! ## Readings -/

/-- What the parts of an expression stand for. -/
structure Reading where
  /-- The entry of the number pool that holds a value. -/
  number : Float → UInt16 → Prop
  /-- The entry of the string pool that holds a text. -/
  text : String → UInt16 → Prop
  /-- The value of a calculation. -/
  calculation : String → Span → Float → Prop
  /-- What a name means at its place; the flag says whether a reference is meant. -/
  name : String → Bool → Span → Operand → Prop
  /-- What a call by a name calls with these operands. -/
  call : String → CallTarget → UInt16 → List Operand → Prop

mutual

/-- The expression, with its parts read this way, is the operand. -/
def Expr.Reads (r : Reading) : Expr → Operand → Prop
  | .number value _, o => ∃ i, o = .number i ∧ r.number value i
  | .calculation text span, o =>
    ∃ value i, o = .number i ∧ r.calculation text span value ∧ r.number value i
  | .not inner _, o => ∃ x, o = .not x ∧ inner.Reads r x
  | .binary op left right _, o => ∃ x y, o = .binary op x y ∧ left.Reads r x ∧ right.Reads r y
  | .call c _, o => ∃ target id args, o = .call target id c.name args ∧ c.Reads r target id args
  | .name s fromTarget span, o => r.name s fromTarget span o

def Call.Reads (r : Reading) : Call → CallTarget → UInt16 → List Operand → Prop
  | .mk name _ _ args _, target, id, os => r.call name target id os ∧ argsRead r args os

def Arg.Reads (r : Reading) : Arg → Operand → Prop
  | .expr e, o => e.Reads r o
  | .text value _, o => ∃ i, o = .text i ∧ r.text value i

def argsRead (r : Reading) : List Arg → List Operand → Prop
  | [], os => os = []
  | arg :: rest, os => ∃ o more, os = o :: more ∧ arg.Reads r o ∧ argsRead r rest more

end

/-- One reading says what another one says, about names at places of a certain kind only. -/
structure Reading.Le (Q : Span → Prop) (r r' : Reading) : Prop where
  /-- About the entries of numbers. -/
  number : ∀ {value i}, r.number value i → r'.number value i
  /-- About the entries of texts. -/
  text : ∀ {value i}, r.text value i → r'.text value i
  /-- About the values of calculations. -/
  calculation : ∀ {text span value}, r.calculation text span value →
    r'.calculation text span value
  /-- About names, at these places. -/
  name : ∀ {s fromTarget span o}, Q span → r.name s fromTarget span o →
    r'.name s fromTarget span o
  /-- About calls. -/
  call : ∀ {name target id os}, r.call name target id os → r'.call name target id os

section

variable {Q : Span → Prop} {r r' : Reading}

mutual

theorem Expr.Reads.mono (h : r.Le Q r') : ∀ {e : Expr} {o : Operand}, (∀ s ∈ e.spans, Q s) →
    e.Reads r o → e.Reads r' o
  | .number _ _, _, _, ⟨i, ho, hi⟩ => ⟨i, ho, h.number hi⟩
  | .calculation _ _, _, _, ⟨value, i, ho, hvalue, hi⟩ =>
    ⟨value, i, ho, h.calculation hvalue, h.number hi⟩
  | .not _ _, _, hQ, ⟨x, ho, hx⟩ =>
    ⟨x, ho, Expr.Reads.mono h (fun s hs ↦ hQ s (by simp [Expr.spans, hs])) hx⟩
  | .binary _ _ _ _, _, hQ, ⟨x, y, ho, hx, hy⟩ =>
    ⟨x, y, ho, Expr.Reads.mono h (fun s hs ↦ hQ s (by simp [Expr.spans, hs])) hx,
      Expr.Reads.mono h (fun s hs ↦ hQ s (by simp [Expr.spans, hs])) hy⟩
  | .call c _, _, hQ, ⟨target, id, args, ho, hc⟩ =>
    ⟨target, id, args, ho, Call.Reads.mono h (fun s hs ↦ hQ s (by simp [Expr.spans, hs])) hc⟩
  | .name _ _ span, _, hQ, hname => h.name (hQ span (by simp [Expr.spans])) hname

theorem Call.Reads.mono (h : r.Le Q r') : ∀ {c : Call} {target : CallTarget} {id : UInt16}
    {os : List Operand}, (∀ s ∈ c.spans, Q s) → c.Reads r target id os → c.Reads r' target id os
  | .mk _ _ _ _ _, _, _, _, hQ, ⟨hcall, hargs⟩ =>
    ⟨h.call hcall, argsRead_mono h (fun s hs ↦ hQ s (by simp [Call.spans, hs])) hargs⟩

theorem Arg.Reads.mono (h : r.Le Q r') : ∀ {a : Arg} {o : Operand}, (∀ s ∈ a.spans, Q s) →
    a.Reads r o → a.Reads r' o
  | .expr _, _, hQ, he => Expr.Reads.mono h (fun s hs ↦ hQ s (by simp [Arg.spans, hs])) he
  | .text _ _, _, _, ⟨i, ho, hi⟩ => ⟨i, ho, h.text hi⟩

theorem argsRead_mono (h : r.Le Q r') : ∀ {as : List Arg} {os : List Operand},
    (∀ s ∈ argSpans as, Q s) → argsRead r as os → argsRead r' as os
  | [], _, _, hos => hos
  | _ :: _, _, hQ, ⟨o, more, hos, ha, hrest⟩ =>
    ⟨o, more, hos, Arg.Reads.mono h (fun s hs ↦ hQ s (by simp [argSpans, hs])) ha,
      argsRead_mono h (fun s hs ↦ hQ s (by simp [argSpans, hs])) hrest⟩

end

end

/-! ## How a program reads its expressions

There are two readings, as there are two kinds of sites: one for code as it was written, in which
definitions are looked up, and one for the inside of a definition. -/

namespace Program

/-- The definition that a name at an offset of a layer stands for. -/
def define? (p : Program) (depth : Nat) (name : String) (offset : Nat) : Option Define :=
  (p.defines.get? name).filter (·.visibleFrom depth offset)

/-- The text of a calculation at an offset of a layer with the definitions put in. -/
def substituted (p : Program) (depth : Nat) (text : String) (offset : Nat) : String :=
  p.defines.values.foldl (fun text d ↦
    match d.expansion with
    | some e =>
      if d.visibleFrom depth offset && containsWord text d.ident.name then
        replaceWord text d.ident.name e.text
      else text
    | none => text) text

/-- A name that is not a definition is the first variable with that name, or the id of a script, or
a global of the runtime. -/
def Names (p : Program) (v : Vocabulary) (vars : List Identifier) (s : String) (fromTarget : Bool)
    (o : Operand) : Prop :=
  match vars.findIdx? (·.name == s) with
  | some k => ∃ slot : UInt16, slot.toNat = k ∧ o = .var slot
  | none =>
    match p.scriptId? s with
    | some k => ∃ id : UInt16, id.toNat = k ∧ o = .raw id
    | none => ∃ g, v.global? s = some g ∧ o = .global g.slot fromTarget

/-- The inside of a definition, with the pools of the scope `s`. -/
def inside (p : Program) (l : Layer) (vars : List Identifier) (s : Scope) : Reading where
  number value i := s.numbers[i.toNat]? = some (narrow value)
  text value i := s.strings[i.toNat]? = some value
  calculation text _ value := evaluate text = .ok value
  name name fromTarget _ o := p.Names l.vocabulary vars name fromTarget o
  call := p.Calls l.vocabulary

/-- Code as it was written: a name may be a definition, and its tree is then read in place. -/
def written (p : Program) (l : Layer) (vars : List Identifier) (s : Scope) : Reading where
  number := (p.inside l vars s).number
  text := (p.inside l vars s).text
  calculation text span value := evaluate (p.substituted l.depth text span.start) = .ok value
  name name fromTarget span o :=
    match p.define? l.depth name span.start with
    | none => p.Names l.vocabulary vars name fromTarget o
    | some d => ∃ e, d.expansion = some e ∧ e.tree.Reads (p.inside l vars s) o
  call := p.Calls l.vocabulary

end Program

/-- A finished program and scope for work that has got this far. -/
structure Completes (w : Work) (p : Program) (s : Scope) : Prop where
  /-- The program is sound. -/
  sound : p.Sound
  /-- The names mean in it what they mean now. -/
  names : w.program.SameNames p
  /-- The numbers so far keep their places. -/
  numbers : w.scope.numbers.toList <+: s.numbers.toList
  /-- The strings so far keep their places. -/
  strings : w.scope.strings.toList <+: s.strings.toList

/-- What a quiet step has finished was not finished before it. -/
theorem Completes.before {α : Type} {x : Lowering α} {w w' : Work} {a : α} {p : Program} {s : Scope}
    (h : Completes w' p s) (hquiet : Quiet x) (hx : x w = .ok a w') : Completes w p s := by
  have hpooled := (hquiet w).2 hx
  exact ⟨h.sound, hquiet.program hx ▸ h.names, hpooled.numbers.trans h.numbers,
    hpooled.strings.trans h.strings⟩

/-- At a place with these variables a step gives values of which `C` holds in the end. -/
def Lowers {α : Type} (env : Env) (vars : List Identifier) (x : Lowering α)
    (C : Program → Scope → α → Prop) : Prop :=
  ∀ w a w', env.vars w = vars → x w = .ok a w' → ∀ p s, Completes w' p s → C p s a

theorem Quiet.vars {α : Type} {x : Lowering α} (hx : Quiet x) (env : Env) {w w' : Work} {a : α}
    (h : x w = .ok a w') : env.vars w' = env.vars w := by
  rw [Env.vars, Env.vars, hx.program h, ((hx w).2 h).vars]

namespace Lowers

variable {α β : Type} {env : Env} {vars : List Identifier}

theorem pure {a : α} {C : Program → Scope → α → Prop} (h : ∀ p s, C p s a) :
    Lowers env vars (pure a) C := by
  intro w b w' _ hx p s _
  obtain ⟨rfl, -⟩ := pure_eq_ok.1 hx
  exact h p s

theorem throw {e : Problem} {C : Program → Scope → α → Prop} :
    Lowers env vars (throw e : Lowering α) C :=
  fun _ _ _ _ hx ↦ absurd hx throw_ne_ok

theorem bind {x : Lowering α} {f : α → Lowering β} {C : Program → Scope → α → Prop}
    {D : Program → Scope → β → Prop} (hquiet : Quiet x) (hx : Lowers env vars x C)
    (hquiet' : ∀ a, Quiet (f a))
    (hf : ∀ a, Lowers env vars (f a) fun p s b ↦ C p s a → D p s b) :
    Lowers env vars (x >>= f) D := by
  intro w b w' hvars h p s hp
  obtain ⟨a, t, hxt, hft⟩ := bind_eq_ok.1 h
  have hvars' : env.vars t = vars := (hquiet.vars env hxt).trans hvars
  exact hf a t b w' hvars' hft p s hp (hx w a t hvars hxt p s (hp.before (hquiet' a) hft))

theorem mono {x : Lowering α} {C D : Program → Scope → α → Prop} (hx : Lowers env vars x C)
    (h : ∀ {p s a}, C p s a → D p s a) : Lowers env vars x D :=
  fun w a w' hvars hxw p s hp ↦ h (hx w a w' hvars hxw p s hp)

end Lowers

/-! ### Primitive steps -/

namespace Lowering

theorem fit_eq_ok {n : Nat} {what : Limit} {pos : Unit → Position} {w w' : Work} {x : UInt16} :
    fit n what pos w = .ok x w' ↔ x.toNat = n ∧ w' = w := by
  rw [fit, word?]
  split
  next hlt =>
    show (pure _ : Lowering UInt16) w = .ok x w' ↔ _
    rw [pure_eq_ok]
    constructor
    · rintro ⟨rfl, rfl⟩
      exact ⟨UInt16.toNat_ofNatLT, rfl⟩
    · rintro ⟨rfl, rfl⟩
      exact ⟨UInt16.toNat_inj.1 (UInt16.toNat_ofNatLT), rfl⟩
  next hlt =>
    constructor
    · exact fun h ↦ absurd h throw_ne_ok
    · rintro ⟨rfl, -⟩
      exact absurd x.toNat_lt hlt

private theorem getElem?_of_prefix {α : Type} {a b : Array α} (h : a.toList <+: b.toList) {i : Nat}
    {x : α} (hx : a[i]? = some x) : b[i]? = some x := by
  obtain ⟨rest, hrest⟩ := h
  rw [← Array.getElem?_toList] at hx ⊢
  rw [← hrest, List.getElem?_append_left (List.getElem?_eq_some_iff.1 hx).1, hx]

theorem lowers_pushNumber {env : Env} {vars : List Identifier} (value : Float)
    (pos : Unit → Position) : Lowers env vars (pushNumber value pos) fun _ s o ↦
      ∃ i : UInt16, o = .number i ∧ s.numbers[i.toNat]? = some (narrow value) := by
  intro w o w' _ h p s hp
  rw [pushNumber, modify_bind, get_bind] at h
  obtain ⟨i, t, hfit, h₁⟩ := bind_eq_ok.1 h
  obtain ⟨hi, rfl⟩ := fit_eq_ok.1 hfit
  obtain ⟨rfl, rfl⟩ := pure_eq_ok.1 h₁
  refine ⟨i, rfl, getElem?_of_prefix hp.numbers ?_⟩
  rw [hi]
  simp

theorem lowers_pushString {env : Env} {vars : List Identifier} (value : String)
    (pos : Unit → Position) : Lowers env vars (pushString value pos) fun _ s o ↦
      ∃ i : UInt16, o = .text i ∧ s.strings[i.toNat]? = some value := by
  intro w o w' _ h p s hp
  rw [pushString, modify_bind, get_bind] at h
  obtain ⟨i, t, hfit, h₁⟩ := bind_eq_ok.1 h
  obtain ⟨hi, rfl⟩ := fit_eq_ok.1 hfit
  obtain ⟨rfl, rfl⟩ := pure_eq_ok.1 h₁
  refine ⟨i, rfl, getElem?_of_prefix hp.strings ?_⟩
  rw [hi]
  simp

end Lowering

/-! ### Names and calls -/

theorem Env.lowers_plainName {env : Env} {vars : List Identifier} (name : String)
    (fromTarget : Bool) (pos : Unit → Position) :
    Lowers env vars (env.plainName name fromTarget pos) fun p _ o ↦
      p.Names env.layer.vocabulary vars name fromTarget o := by
  intro w o w' hvars h p s hp
  have hnames := (hp.before (env.quiet_plainName name fromTarget pos) h).names
  rw [Env.plainName, get_bind, Env.slot?, hvars] at h
  rw [Program.Names, hnames.scriptId?]
  cases hslot : vars.findIdx? (·.name == name) with
  | some k =>
    simp only [hslot] at h
    obtain ⟨slot, t, hfit, h₁⟩ := bind_eq_ok.1 h
    obtain ⟨rfl, -⟩ := pure_eq_ok.1 h₁
    exact ⟨slot, (Lowering.fit_eq_ok.1 hfit).1, rfl⟩
  | none =>
    simp only [hslot] at h
    cases hscript : w.program.scriptId? name with
    | some k =>
      simp only [hscript] at h
      obtain ⟨id, t, hfit, h₁⟩ := bind_eq_ok.1 h
      obtain ⟨rfl, -⟩ := pure_eq_ok.1 h₁
      exact ⟨id, (Lowering.fit_eq_ok.1 hfit).1, rfl⟩
    | none =>
      simp only [hscript] at h
      cases hglobal : env.layer.vocabulary.global? name with
      | some g =>
        simp only [hglobal] at h
        obtain ⟨rfl, -⟩ := pure_eq_ok.1 h
        exact ⟨g, rfl, rfl⟩
      | none =>
        simp only [hglobal] at h
        exact absurd h throw_ne_ok

theorem lowers_calculated {env : Env} {vars : List Identifier} (text : String)
    (pos : Unit → Position) :
    Lowers env vars (calculated text pos) fun _ _ value ↦ evaluate text = .ok value := by
  rw [calculated]
  split
  next value hvalue => exact .pure fun _ _ ↦ hvalue
  next => exact .throw

theorem checkArgs_eq_ok {site : Site} {callee : Env.Callee} {name : String} {nameSpan : Span}
    {args : List Arg} {os : List Operand} {w w' : Work}
    (h : checkArgs site callee name nameSpan args os w = .ok () w') :
    (if callee.variadic then 1 ≤ os.length else os.length = callee.arity) ∧
      ∀ o ∈ os.take callee.refCount, o.isVar = true := by
  rw [checkArgs] at h
  cases hfind : (os.take callee.refCount).findIdx? (fun o : Operand ↦ !o.isVar) with
  | none =>
    refine ⟨?_, by simpa using List.findIdx?_eq_none_iff.1 hfind⟩
    split at h
    next hvariadic =>
      rw [if_pos hvariadic]
      split at h
      next => exact absurd (bind_eq_ok.1 h) (by rintro ⟨_, _, h, -⟩; exact throw_ne_ok h)
      next hne => exact Nat.pos_of_ne_zero hne
    next hvariadic =>
      rw [if_neg hvariadic]
      split at h
      next => exact absurd (bind_eq_ok.1 h) (by rintro ⟨_, _, h, -⟩; exact throw_ne_ok h)
      next heq => exact not_not.1 heq
  | some index =>
    -- one of the operands to pass by reference is no variable, so one of the two checks fails
    simp only [hfind] at h
    split at h <;> split at h
    · exact absurd (bind_eq_ok.1 h) (by rintro ⟨_, _, h, -⟩; exact throw_ne_ok h)
    · exact absurd h throw_ne_ok
    · exact absurd (bind_eq_ok.1 h) (by rintro ⟨_, _, h, -⟩; exact throw_ne_ok h)
    · exact absurd h throw_ne_ok

private theorem Callable.Takes.of_checked {c c' : Callable} {depth scopes : Nat} {os : List Operand}
    (hsound : c'.Sound depth scopes) (hbare : c'.bare = c.bare)
    (hcount : os.length = c.params.length)
    (hrefs : ∀ o ∈ os.take c.refCount.toNat, o.isVar = true) : c'.Takes os := by
  have hparams : c'.params = c.params := (congrArg Callable.params hbare :)
  have hrefCount : c'.refCount = c.refCount := (congrArg Callable.refCount hbare :)
  refine ⟨hparams ▸ hcount, fun i hi ↦ ?_⟩
  -- there are enough operands: a callable has no more references than parameters
  have hle := hsound.refCount_le
  rw [hparams] at hle
  have hlt : i < os.length := by omega
  have hmem : os.get ⟨i, hlt⟩ ∈ os.take c.refCount.toNat := by
    rw [List.mem_take_iff_getElem]
    exact ⟨i, by rw [← hrefCount]; omega, rfl⟩
  have hvar := hrefs _ hmem
  cases ho : os.get ⟨i, hlt⟩ with
  | var slot => exact ⟨slot, by rw [List.getElem?_eq_getElem hlt, ← ho]; rfl⟩
  | number | text | global | raw | call | not | binary =>
    rw [ho] at hvar
    contradiction

/-- What a call was found to call, with operands that were checked, is what it calls in the end. -/
theorem Env.calls_of_callee? {env : Env} {name : String} {w : Work} {callee : Env.Callee}
    {p : Program} {id : UInt16} {os : List Operand} (hp : p.Sound) (hnames : w.program.SameNames p)
    (h : env.callee? name w = some callee) (hid : id.toNat = callee.id)
    (hcount : if callee.variadic then 1 ≤ os.length else os.length = callee.arity)
    (hrefs : ∀ o ∈ os.take callee.refCount, o.isVar = true) :
    p.Calls env.layer.vocabulary name callee.target id os := by
  rw [Env.callee?] at h
  split at h
  next k c hk hc =>
    cases h
    obtain ⟨i, hi, hat⟩ := Table.indexOf?_of_get? hc
    obtain ⟨c', hat', hbare⟩ := hnames.script hat
    rw [Program.scriptId?, hi, Option.map_some] at hk
    cases hk
    have hget : p.scripts.get? name = some c' := Table.get?_eq_some_iff.2 ⟨i, hat'⟩
    -- the script is in the table, so it is not `main`, which has an id of its own
    have hne : name ≠ mainName := by
      rintro rfl
      exact nomatch hp.main_not_script.symm.trans hget
    rw [Program.Calls, if_neg hne]
    exact ⟨i, c', hat', hid, .of_checked (hp.scripts c' (Table.mem_values_iff.2 ⟨name, hget⟩)) hbare
      hcount hrefs⟩
  next =>
    split at h
    next k c hk hc =>
      cases h
      obtain ⟨i, hi, hat⟩ := Table.indexOf?_of_get? hc
      obtain ⟨c', hat', hbare⟩ := hnames.function hat
      obtain rfl : i = k := Option.some.inj (hi.symm.trans hk)
      have hget : p.functions.get? name = some c' := Table.get?_eq_some_iff.2 ⟨i, hat'⟩
      exact ⟨i, c', hat', hid, .of_checked (hp.functions c' (Table.mem_values_iff.2 ⟨name, hget⟩))
        hbare hcount hrefs⟩
    next =>
      split at h
      next c hc =>
        cases h
        exact ⟨c, hc, UInt16.toNat_inj.1 hid, hcount⟩
      next =>
        split at h
        next c hc =>
          cases h
          split at hc
          next hname =>
            obtain ⟨c', hmain, hbare⟩ := hnames.main_some hc
            rw [Program.Calls, if_pos (beq_iff_eq.1 hname)]
            exact ⟨UInt16.toNat_inj.1 hid, c', hmain,
              .of_checked (hp.main hmain) hbare hcount hrefs⟩
          next => contradiction
        next => contradiction

/-! ## Lowering gives what the reading says

The induction is on the tree. Each step says what it has put into the pools and relies on the
later steps to leave that in place. -/

/-- The names and calculations of a site are lowered to what a reading says. -/
structure Site.Means (site : Site) (env : Env) (vars : List Identifier)
    (r : Program → Scope → Reading) : Prop where
  /-- Reading a name or a calculation changes nothing but the pools. -/
  quiet : site.IsQuiet
  /-- The reading takes a number that is in the pool. -/
  number : ∀ {p s value} {i : UInt16}, s.numbers[i.toNat]? = some (narrow value) →
    (r p s).number value i
  /-- The reading takes a text that is in the pool. -/
  text : ∀ {p s value} {i : UInt16}, s.strings[i.toNat]? = some value → (r p s).text value i
  /-- The reading takes a call that can be made. -/
  call : ∀ {p s name target id os}, p.Calls env.layer.vocabulary name target id os →
    (r p s).call name target id os
  /-- A name is lowered to what the reading says. -/
  name : ∀ t fromTarget span, Lowers env vars (site.name t fromTarget span) fun p s o ↦
    (r p s).name t fromTarget span o
  /-- A calculation is lowered to what the reading says. -/
  calculate : ∀ text span, Lowers env vars (site.calculate text span) fun p s value ↦
    (r p s).calculation text span value

section

variable {env : Env} {site : Site} {vars : List Identifier} {r : Program → Scope → Reading}

mutual

theorem Expr.lowers_lower (hsite : site.Means env vars r) : ∀ e : Expr,
    Lowers env vars (e.lower env site) fun p s o ↦ e.Reads (r p s) o
  | .number value _ => (Lowering.lowers_pushNumber value _).mono fun ⟨i, ho, hi⟩ ↦
    ⟨i, ho, hsite.number hi⟩
  | .calculation text span => by
    refine .bind (hsite.quiet.calculate _ _) (hsite.calculate text span)
      (fun _ ↦ Lowering.quiet_pushNumber _ _) fun value ↦
        (Lowering.lowers_pushNumber value _).mono ?_
    rintro p s o ⟨i, ho, hi⟩ hvalue
    exact ⟨value, i, ho, hvalue, hsite.number hi⟩
  | .not inner _ => by
    refine .bind (inner.quiet_lower hsite.quiet) (inner.lowers_lower hsite) (fun _ ↦ .pure _)
      fun x ↦ .pure ?_
    intro p s hx
    exact ⟨x, rfl, hx⟩
  | .binary op left right _ => by
    refine .bind (left.quiet_lower hsite.quiet) (left.lowers_lower hsite)
      (fun _ ↦ .bind (right.quiet_lower hsite.quiet) fun _ ↦ .pure _) fun x ↦
        .bind (right.quiet_lower hsite.quiet) (right.lowers_lower hsite) (fun _ ↦ .pure _)
          fun y ↦ .pure ?_
    intro p s hy hx
    exact ⟨x, y, rfl, hx, hy⟩
  | .call c _ => by
    refine .bind (c.quiet_lower hsite.quiet) (c.lowers_lower hsite) (fun _ ↦ .pure _)
      fun called ↦ .pure ?_
    intro p s hc
    exact ⟨called.1, called.2.1, called.2.2, rfl, hc⟩
  | .name s fromTarget span => hsite.name s fromTarget span

theorem Call.lowers_lower (hsite : site.Means env vars r) : ∀ c : Call,
    Lowers env vars (c.lower env site) fun p s called ↦
      c.Reads (r p s) called.1 called.2.1 called.2.2
  | .mk name nameSpan collapse args span => by
    intro w called w' hvars h p s hp
    have hnames := (hp.before (Call.quiet_lower hsite.quiet _) h).names
    rw [Call.lower, get_bind] at h
    cases hcallee : env.callee? name w with
    | none =>
      simp only [hcallee] at h
      exact absurd h throw_ne_ok
    | some callee =>
      simp only [hcallee] at h
      obtain ⟨id, t, hfit, h₁⟩ := bind_eq_ok.1 h
      obtain ⟨hid, rfl⟩ := Lowering.fit_eq_ok.1 hfit
      obtain ⟨os, t₁, hargs, h₂⟩ := bind_eq_ok.1 h₁
      obtain ⟨⟨⟩, t₂, hcheck, h₃⟩ := bind_eq_ok.1 h₂
      obtain ⟨rfl, rfl⟩ := pure_eq_ok.1 h₃
      obtain ⟨hcount, hrefs⟩ := checkArgs_eq_ok hcheck
      -- the check comes after the operands and changes nothing, so their end is the end of the call
      have hp₁ := hp.before (quiet_checkArgs site callee name nameSpan args os) hcheck
      obtain ⟨more, rfl, hread⟩ := lowers_lowerArgs hsite [] args _ _ _ hvars hargs p s hp₁
      exact ⟨hsite.call (Env.calls_of_callee? hp.sound hnames hcallee hid hcount hrefs), hread⟩

theorem Arg.lowers_lower (hsite : site.Means env vars r) : ∀ a : Arg,
    Lowers env vars (a.lower env site) fun p s o ↦ a.Reads (r p s) o
  | .expr e => e.lowers_lower hsite
  | .text value _ => (Lowering.lowers_pushString value _).mono fun ⟨i, ho, hi⟩ ↦
    ⟨i, ho, hsite.text hi⟩

theorem lowers_lowerArgs (hsite : site.Means env vars r) (done : List Operand) :
    ∀ args : List Arg, Lowers env vars (lowerArgs env site done args) fun p s os ↦
      ∃ more, os = done.reverse ++ more ∧ argsRead (r p s) args more
  | [] => .pure fun _ _ ↦ ⟨[], by simp, rfl⟩
  | arg :: rest => by
    refine .bind (arg.quiet_lower hsite.quiet) (arg.lowers_lower hsite)
      (fun _ ↦ quiet_lowerArgs hsite.quiet _ rest) fun o ↦
        (lowers_lowerArgs hsite (o :: done) rest).mono ?_
    rintro p s os ⟨more, rfl, hmore⟩ ho
    exact ⟨o :: more, by simp, o, more, rfl, ho, hmore⟩

end

end

theorem Site.means_inside (env : Env) (vars : List Identifier) (pos : Position) :
    (Site.inside env pos).Means env vars fun p s ↦ p.inside env.layer vars s where
  quiet := isQuiet_inside env pos
  number h := h
  text h := h
  call h := h
  name t fromTarget _ := env.lowers_plainName t fromTarget fun _ ↦ pos
  calculate text _ := lowers_calculated text fun _ ↦ pos

theorem Site.means_written (env : Env) (vars : List Identifier) :
    (Site.written env).Means env vars fun p s ↦ p.written env.layer vars s where
  quiet := isQuiet_written env
  number h := h
  text h := h
  call h := h
  name t fromTarget span := by
    intro w o w' hvars h p s hp
    have hnames := (hp.before ((isQuiet_written env).name t fromTarget span) h).names
    -- the definitions in sight are the same at the end as they were here
    have hdefine : p.define? env.layer.depth t span.start = env.define? t span.start w := by
      rw [Program.define?, hnames.defines]
      rfl
    show match p.define? env.layer.depth t span.start with
      | none => p.Names env.layer.vocabulary vars t fromTarget o
      | some d => ∃ e, d.expansion = some e ∧ e.tree.Reads (p.inside env.layer vars s) o
    rw [hdefine]
    simp only [Site.written, get_bind] at h
    cases hd : env.define? t span.start w with
    | none =>
      simp only [hd] at h
      exact env.lowers_plainName t fromTarget _ w o w' hvars h p s hp
    | some d =>
      simp only [hd] at h
      cases he : d.expansion with
      | none =>
        simp only [he] at h
        exact absurd h throw_ne_ok
      | some e =>
        simp only [he] at h
        exact ⟨e, he, e.tree.lowers_lower (means_inside env vars _) w o w' hvars h p s hp⟩
  calculate text span := by
    intro w value w' hvars h p s hp
    have hnames := (hp.before ((isQuiet_written env).calculate text span) h).names
    have hvalue := lowers_calculated (substituted env w text span.start)
      (fun _ ↦ env.layer.pos span) w value w' hvars h p s hp
    have hsubst : p.substituted env.layer.depth text span.start
        = substituted env w text span.start := by
      rw [Program.substituted, hnames.defines]
      rfl
    show evaluate (p.substituted env.layer.depth text span.start) = .ok value
    rw [hsubst]
    exact hvalue

/-- An expression as it was written is lowered to what the program reads it as. -/
theorem Expr.lower_reads {env : Env} {e : Expr} {w w' : Work} {o : Operand}
    (h : e.lowerHere env w = .ok o w') {p : Program} {s : Scope} (hp : Completes w' p s) :
    e.Reads (p.written env.layer (env.vars w) s) o :=
  e.lowers_lower (Site.means_written env (env.vars w)) w o w' rfl h p s hp

theorem Call.lower_reads {env : Env} {c : Call} {w w' : Work} {target : CallTarget} {id : UInt16}
    {os : List Operand} (h : c.lower env (.written env) w = .ok (target, id, os) w') {p : Program}
    {s : Scope} (hp : Completes w' p s) :
    c.Reads (p.written env.layer (env.vars w) s) target id os :=
  c.lowers_lower (Site.means_written env (env.vars w)) w (target, id, os) w' rfl h p s hp

end CharacterScript
