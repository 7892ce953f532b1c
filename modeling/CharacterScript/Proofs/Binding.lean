import CharacterScript.Proofs.Lowering.Scopes

/-!
# A variable keeps its slot

The slot of a variable is found anew at each use, by a search for its name in a list that grows and
shrinks as blocks open and close. Still every use of a variable, in the rest of the block that
declares it and in all blocks inside, has the slot the declaration stored its value in.

## Two rules

`Rule.pinned` is a rule for code in which a given variable is visible: each use of its name, as a
target, in an expression or in the tree of a definition that is used, is the variable with a fixed
slot. `Rule.binding` asks of each declaration that the rest of its block keeps to that rule, and
`accepted_binding` says that all bodies of accepted layers keep to `Rule.binding`. Two facts carry
the proof. Names are looked up from the front, so variables declared later do not change what a name
already found stands for; and a definition with the name of the variable, which would be preferred
to it, cannot come into sight within a callable, because definitions stand outside of callables.

## What is not promised

The text of a definition is read at the place of its use, so a name in it means what it means
there. A variable that is declared between two uses can give it a meaning it had not before. What
stays is the meaning of a name that was found, and that is what the rules speak of: the tree of
the definition as it is lowered, not its text (`define_text_not_pinned`).
-/

namespace CharacterScript

/-! ## Slots

A slot is a place in a list, and a name leads to the first place that has it. Lists in sight have
no name twice, so the slot of a variable belongs to its name alone, and both keep as long as
variables are only added behind. -/

/-- The variable is the one with the slot `k`, and its name is the only one that is found there. -/
structure Identifier.HasSlot (x : Identifier) (k : Nat) (vars : List Identifier) : Prop where
  /-- It stands at place `k` among the variables. -/
  at_slot : vars[k]? = some x
  /-- A name leads to that place only if it is the name of the variable. -/
  found_iff : ∀ name, vars.findIdx? (·.name == name) = some k ↔ name = x.name

namespace Identifier.HasSlot

variable {x : Identifier} {k : Nat} {vars : List Identifier}

/-- A new variable has the next slot. -/
theorem new (h : ∀ i ∈ vars, i.name ≠ x.name) : x.HasSlot vars.length (vars ++ [x]) := by
  have hnone : vars.findIdx? (·.name == x.name) = none := by
    rw [List.findIdx?_eq_none_iff]
    exact fun i hi ↦ beq_eq_false_iff_ne.2 (h i hi)
  have hat : (vars ++ [x])[vars.length]? = some x := List.getElem?_concat_length
  refine ⟨hat, fun name ↦ ⟨fun hfound ↦ ?_, ?_⟩⟩
  · obtain ⟨hlt, hname, -⟩ := List.findIdx?_eq_some_iff_getElem.1 hfound
    rw [List.getElem_concat_length rfl] at hname
    exact (eq_of_beq hname).symm
  · rintro rfl
    rw [List.findIdx?_append, hnone]
    simp

/-- Variables that are declared later have later slots. -/
theorem append (h : x.HasSlot k vars) (more : List Identifier) : x.HasSlot k (vars ++ more) := by
  have hlt : k < vars.length := (List.getElem?_eq_some_iff.1 h.at_slot).1
  refine ⟨by rw [List.getElem?_append_left hlt, h.at_slot], fun name ↦ ?_⟩
  rw [← h.found_iff, List.findIdx?_append]
  cases vars.findIdx? (·.name == name) with
  | some j => rfl
  | none =>
    simp only [Option.none_or, Option.map_eq_some_iff, reduceCtorEq, iff_false, not_exists, not_and]
    intro j _
    omega

end Identifier.HasSlot

/-! ## Rules about one variable -/

/-- The operand is the variable with the slot `k`. -/
def Operand.IsSlot (o : Operand) (k : Nat) : Prop :=
  ∃ slot : UInt16, slot.toNat = k ∧ o = .var slot

/-- The reading, where the name of `x` is the variable with the slot `k`. -/
def Reading.pin (r : Reading) (x : Identifier) (k : Nat) (vars : List Identifier) : Reading where
  number := r.number
  text := r.text
  calculation := r.calculation
  name name fromTarget span o :=
    r.name name fromTarget span o ∧ (name = x.name → o.IsSlot k ∧ x.HasSlot k vars)
  call := r.call

/-- Code as it was written, where the name of `x` is the variable with the slot `k`, also in the
tree of a definition that is used. -/
def Program.pinned (p : Program) (l : Layer) (x : Identifier) (k : Nat) (vars : List Identifier)
    (s : Scope) : Reading where
  number := (p.written l vars s).number
  text := (p.written l vars s).text
  calculation := (p.written l vars s).calculation
  name name fromTarget span o :=
    ((p.written l vars s).pin x k vars).name name fromTarget span o ∧
      ∀ d, p.define? l.depth name span.start = some d →
        ∃ e, d.expansion = some e ∧ e.tree.Reads ((p.inside l vars s).pin x k vars) o
  call := (p.written l vars s).call

/-- Every use of the name of `x` is the variable with the slot `k`. -/
def Rule.pinned (p : Program) (l : Layer) (x : Identifier) (k : Nat) : Rule where
  reading := p.pinned l x k
  assign vars name slot := (Rule.sound p l).assign vars name slot ∧
    (name = x.name → slot.toNat = k ∧ x.HasSlot k vars)
  declare := (Rule.sound p l).declare

/-- A declaration gives its variable the next slot, for the rest of the block. -/
def Rule.binding (p : Program) (l : Layer) : Rule where
  reading := (Rule.sound p l).reading
  assign := (Rule.sound p l).assign
  declare id s vars place name nameSpan rest is :=
    stmtsCompiled p l (.pinned p l ⟨.var, name, l.pos nameSpan⟩ vars.length) id s
      (vars ++ [⟨.var, name, l.pos nameSpan⟩]) place rest is

section

variable {p : Program} {l : Layer} {x : Identifier} {k : Nat} {vars : List Identifier} {s : Scope}

theorem Program.Names.isSlot {name : String} {fromTarget : Bool} {o : Operand}
    (h : p.Names l.vocabulary vars name fromTarget o) (hx : x.HasSlot k vars)
    (hname : name = x.name) : o.IsSlot k := by
  rw [Names, (hx.found_iff name).2 hname] at h
  exact h

/-- In the tree of a definition a visible variable has its slot. -/
theorem Program.inside_le_pin (hx : x.HasSlot k vars) :
    (p.inside l vars s).Le (fun _ ↦ True) ((p.inside l vars s).pin x k vars) where
  number h := h
  text h := h
  calculation h := h
  name _ h := ⟨h, fun hname ↦ ⟨Names.isSlot h hx hname, hx⟩⟩
  call h := h

/-- So it has in code, where no definition has its name. -/
theorem Program.written_le_pinned (hx : x.HasSlot k vars) :
    (p.written l vars s).Le (fun span ↦ p.define? l.depth x.name span.start = none)
      (p.pinned l x k vars s) where
  number h := h
  text h := h
  calculation h := h
  name {name _ span o} hnone h := by
    refine ⟨⟨h, fun hname ↦ ⟨?_, hx⟩⟩, fun d hd ↦ ?_⟩
    · dsimp only [written] at h
      rw [hname, hnone] at h
      exact Names.isSlot h hx rfl
    · dsimp only [written] at h
      rw [hd] at h
      obtain ⟨e, he, htree⟩ := h
      exact ⟨e, he, htree.mono (inside_le_pin hx) fun _ _ ↦ trivial⟩
  call h := h

theorem Rule.sound_le_pinned :
    (Rule.sound p l).Le p l (fun span ↦ p.define? l.depth x.name span.start = none) (x.HasSlot k)
      (.pinned p l x k) where
  reading hx := Program.written_le_pinned hx
  assign {vars name slot} hx h := by
    refine ⟨h, fun hname ↦ ⟨?_, hx⟩⟩
    have hfound : vars.findIdx? (·.name == name) = some slot.toNat := h
    rw [(hx.found_iff name).2 hname] at hfound
    exact (Option.some.inj hfound).symm
  step hx _ := hx.append _
  declare _ _ _ h _ := h

/-! ## Bodies

A declaration is the one statement that brings something in sight, so it is where the rule for the
rest of the block comes from. The rest was compiled by the sound rule, and the sound rule is
stronger at every name. -/

/-- Where the same definitions are in sight all over, lowering keeps to the binding rule. -/
theorem Rule.sound_le_binding (offset : Nat) :
    (Rule.sound p l).Le p l
      (fun span ↦ ∀ name, p.define? l.depth name span.start = p.define? l.depth name offset)
      (fun _ ↦ True) (.binding p l) where
  reading _ := ⟨id, id, id, fun _ ↦ id, id⟩
  assign _ h := h
  step _ _ := trivial
  declare {id s vars place name nameSpan rest is} _ hspan hrest h hcompiled := by
    obtain ⟨hnew, hnone⟩ := h
    refine stmtsCompiled_mono sound_le_pinned (Identifier.HasSlot.new hnew) (fun span hs ↦ ?_)
      hcompiled
    -- no definition had the name at the declaration, and the same ones are in sight later on
    dsimp only
    rw [hrest span hs, ← hspan, hnone]

end

namespace Layer.Compiled

variable {l : Layer} {items : List Item} {p : Program}

/-- A name stands for the same definition all over a callable. -/
theorem define?_eq (h : l.Compiled items p) {a b i j : Nat}
    (hapart : ∀ e, .define e ∈ items → e.span.start < a ∨ b ≤ e.span.start)
    (hi : a ≤ i ∧ i < b) (hj : a ≤ j ∧ j < b) (name : String) :
    p.define? l.depth name i = p.define? l.depth name j := by
  rw [Program.define?, Program.define?]
  cases hget : p.defines.get? name with
  | none => rfl
  | some d =>
    obtain ⟨-, hitem⟩ := h.defines hget
    have hvisible : d.visibleFrom l.depth i = d.visibleFrom l.depth j := by
      rw [Define.visibleFrom, Define.visibleFrom]
      by_cases hdepth : d.depth = l.depth
      · obtain ⟨e, he, hoffset⟩ := hitem hdepth
        -- a definition of this layer stands before the callable or behind it
        have hsame : d.offset < i ↔ d.offset < j := by
          rw [← hoffset]
          rcases hapart e he with hlt | hge <;> omega
        rw [decide_eq_decide.2 hsame]
      -- one of an earlier layer is in sight everywhere
      · rw [beq_false_of_ne hdepth, Bool.false_and, Bool.false_and]
    rw [Option.filter_some, Option.filter_some, hvisible]

/-- The body of every callable keeps to the binding rule. -/
theorem body_binding (h : l.Compiled items p) (hitems : ItemsOrdered 0 items) {d : CallableDecl}
    (hd : .callable d ∈ items) : ∃ place, BodyCompiled p l (.binding p l) place d.owner d.body := by
  obtain ⟨order, hperm, hbodies⟩ := h.bodies
  obtain ⟨place, c, id, s, is, hc, hdepth, hbody, hs, hroot, hvars, hcode, hstmts⟩ :=
    hbodies.body_of_mem (hperm.mem_iff.2 (mem_bodiesOf.2 ⟨d, hd, rfl, rfl⟩))
  obtain ⟨a, b, -, hcovers, hapart⟩ := hitems.apart hd
  refine ⟨place, c, id, s, is, hc, hdepth, hbody, hs, hroot, hvars, hcode, ?_⟩
  have hinside : ∀ span ∈ d.body.spans, a ≤ span.start ∧ span.start < b := fun span hspan ↦ by
    obtain ⟨hle, hlt, hstop⟩ := hcovers span hspan
    exact ⟨hle, hlt.trans_le hstop⟩
  cases hblock : d.body with
  | mk stmts blockSpan =>
    rw [hblock] at hstmts hinside
    refine stmtsCompiled_mono (Rule.sound_le_binding blockSpan.start) trivial
      (fun span hspan ↦ h.define?_eq hapart (hinside span ?_) (hinside blockSpan ?_)) hstmts
    · exact List.mem_cons_of_mem _ hspan
    · exact List.mem_cons_self

end Layer.Compiled

/-! ## Accepted layers -/

/-- In a layer that a session accepts, each declaration stores its value in the next slot, and the
variable has that slot wherever its name is used in the rest of the block. -/
theorem accepted_binding {s s' : Session} {source : String} {depth : Nat} (hs : s.Reachable)
    (h : s.compileLayer source = (.ok depth, s')) :
    depth = (s.nextLayer source).depth ∧ ∃ items, ReadsAs source items ∧
      ∀ d, .callable d ∈ items → ∃ place, BodyCompiled s'.program (s.nextLayer source)
        (.binding s'.program (s.nextLayer source)) place d.owner d.body := by
  obtain ⟨hd, -, -⟩ := Session.compileLayer_ok h
  obtain ⟨items, hitems, hcompiled⟩ := hs.compiled h
  exact ⟨hd, items, hitems, fun d hd ↦ hcompiled.body_binding hitems.ordered hd⟩

/-- In the sample, `main` declares a variable and uses it in the blocks inside. -/
theorem accepted_binding_sample :
    ∃ s items, Sample.start.compileLayer Sample.source = (.ok 1, s) ∧
      ReadsAs Sample.source items ∧
      ∀ d, .callable d ∈ items → ∃ place,
        BodyCompiled s.program (Sample.start.nextLayer Sample.source)
          (.binding s.program (Sample.start.nextLayer Sample.source)) place d.owner d.body := by
  obtain ⟨s, hs⟩ := Sample.accepted
  obtain ⟨-, items, hitems, hbodies⟩ := accepted_binding Sample.reachable_start hs
  exact ⟨s, items, hs, hitems, hbodies⟩

/-- A layer with a variable and, behind the code that uses it, a definition of the same name. -/
def Sample.lateDefinition : String :=
  "#define D x + 1
script main() \x7b let x = 2 Print(D) \x7d
#define x 5"

/-- Whether the value of the first variable is followed by a sum of two other numbers. -/
def Sample.printsNumbers : List Instruction → Bool
  | [_, ⟨"SetVariable", [.var 0, .number 0]⟩,
      ⟨"Print", [.binary .add (.number 1) (.number 2)]⟩, _] => true
  | _ => false

theorem Sample.printsNumbers_eq_true {is : List Instruction} (h : printsNumbers is = true) :
    ∃ create loopback, is = [create, .setVariable 0 (.number 0),
      ⟨"Print", [.binary .add (.number 1) (.number 2)]⟩, loopback] := by
  rw [printsNumbers.eq_def] at h
  split at h
  next create loopback => exact ⟨create, loopback, rfl⟩
  next => contradiction

/-- The text of a definition is not enough to see what a name in it stands for: other definitions
are put into it first, later ones too. Here the name of the visible variable `x`, with the slot 0,
stands in the text of `D`, and yet what became of `D` is the sum of the numbers 5 and 1. -/
theorem define_text_not_pinned :
    ∃ s t, Sample.start.compileLayer Sample.lateDefinition = (.ok 1, s) ∧
      (s.program.defines.get? "D").map (·.text) = some "x + 1" ∧ s.program.scope? 0 = some t ∧
      t.vars.toList.map (·.name) = ["x"] ∧ t.numbers[1]? = some 5 ∧
      ∃ create loopback, t.instructions.toList = [create, .setVariable 0 (.number 0),
        ⟨"Print", [.binary .add (.number 1) (.number 2)]⟩, loopback] := by
  obtain ⟨haccepted, htext, hscope⟩ :
      (Sample.start.compileLayer Sample.lateDefinition).1.toOption = some 1 ∧
      ((Sample.start.compileLayer Sample.lateDefinition).2.program.defines.get? "D").map (·.text)
        = some "x + 1" ∧
      ((Sample.start.compileLayer Sample.lateDefinition).2.program.scope? 0).map (fun t ↦
        (t.vars.toList.map (·.name), t.numbers[1]?, Sample.printsNumbers t.instructions.toList))
        = some (["x"], some 5, true) := by
    decide +kernel
  obtain ⟨s, hs⟩ := Sample.accepted_of_toOption Sample.lateDefinition haccepted
  rw [hs] at htext hscope
  obtain ⟨t, ht, heq⟩ := Option.map_eq_some_iff.1 hscope
  simp only [Prod.mk.injEq] at heq
  obtain ⟨hvars, hnumbers, hcode⟩ := heq
  exact ⟨s, t, hs, htext, ht, hvars, hnumbers, Sample.printsNumbers_eq_true hcode⟩

end CharacterScript
