import CharacterScript.Proofs.Calls

/-!
# Calls of a callable that is declared again

A call is checked when it is lowered. At that time its operands are as many as its callee has
parameters, with variables where these are references. What stays of the callee in the code is an
id, and a later layer can declare the callee again under that id. The new declaration is not
compared with the old one, and the code that is there already is not looked at.

## When they fit

So the operands fit what the id stands for as long as the callee is the one they were checked
against, and they fit a later one exactly if it takes as many parameters and if each operand that
only it takes by reference happens to be a variable (`overridden_call_fits_iff`).

## The sibling checks

When a layer calls a callable of a layer below it, operands are compared with the parameters as
they are then. When a layer replaces a callable, calls in the layers below it are not looked for,
and could not be mended if they were found, since their code is in images already. So whether an
old call fits is left to chance, and the statement says what it depends on.
-/

namespace CharacterScript

open Running

/-! ## The operands of code

A call may be inside of an operand, so all parts of operands are gone through. -/

mutual

/-- The operand and all operands inside it. -/
def Operand.parts : Operand → List Operand
  | .call target id name args => .call target id name args :: operandParts args
  | .not inner => .not inner :: inner.parts
  | .binary op left right => .binary op left right :: (left.parts ++ right.parts)
  | .number index => [.number index]
  | .text index => [.text index]
  | .var slot => [.var slot]
  | .global slot relative => [.global slot relative]
  | .raw value => [.raw value]

def operandParts : List Operand → List Operand
  | [] => []
  | o :: rest => o.parts ++ operandParts rest

end

/-- All operands in the code of a scope. -/
def Scope.parts (s : Scope) : List Operand :=
  s.instructions.toList.flatMap fun i ↦ operandParts i.args

section

variable {p : Program} {v : Vocabulary} {s : Scope} {slots : Nat}

mutual

/-- What is inside a well-formed operand is well formed. -/
theorem Operand.WellFormed.parts : ∀ {o : Operand}, o.WellFormed p v s slots →
    ∀ x ∈ o.parts, x.WellFormed p v s slots
  | .call _ _ _ _, h => List.forall_mem_cons.2 ⟨h, operandsWellFormed_parts h.2⟩
  | .not inner, h => by
    have hinner : inner.WellFormed p v s slots := h
    exact List.forall_mem_cons.2 ⟨h, hinner.parts⟩
  | .binary _ _ _, h =>
    List.forall_mem_cons.2 ⟨h, List.forall_mem_append.2 ⟨h.1.parts, h.2.parts⟩⟩
  | .number _, h | .text _, h | .var _, h | .global _ _, h | .raw _, h =>
    List.forall_mem_singleton.2 h

theorem operandsWellFormed_parts : ∀ {os : List Operand}, operandsWellFormed p v s slots os →
    ∀ x ∈ operandParts os, x.WellFormed p v s slots
  | [], _ => nofun
  | _ :: _, ⟨ho, hrest⟩ => List.forall_mem_append.2 ⟨ho.parts, operandsWellFormed_parts hrest⟩

end

end

namespace Program

variable {p : Program} {v : Vocabulary} {name : String} {target : CallTarget} {id : UInt16}
  {args : List Operand}

/-- A call has operands that its callee takes. -/
theorem Calls.takes (h : p.Calls v name target id args) {owner : Owner}
    (howner : CallRef.owner? ⟨target, id, name⟩ = some owner) :
    ∃ c, p.callable? owner = some c ∧ c.Takes args := by
  cases target with
  | builtin => contradiction
  | function =>
    obtain ⟨i, c, hat, -, htakes⟩ := h
    cases howner
    exact ⟨c, Table.get?_eq_some_iff.2 ⟨i, hat⟩, htakes⟩
  | script =>
    cases howner
    rw [Calls] at h
    split at h
    next hmain =>
      obtain ⟨-, c, hc, htakes⟩ := h
      rw [if_pos hmain]
      exact ⟨c, hc, htakes⟩
    next hmain =>
      obtain ⟨i, c, hat, -, htakes⟩ := h
      rw [if_neg hmain]
      exact ⟨c, Table.get?_eq_some_iff.2 ⟨i, hat⟩, htakes⟩

end Program

/-- Operands that fit one callable fit another exactly if that takes as many, and variables too
where only it takes references. -/
theorem Callable.Takes.iff_of_takes {c c' : Callable} {args : List Operand} (h : c.Takes args) :
    c'.Takes args ↔ c'.params.length = c.params.length ∧
      ∀ i, c.refCount.toNat ≤ i → i < c'.refCount.toNat → ∃ slot, args[i]? = some (.var slot) := by
  constructor
  · exact fun h' ↦ ⟨h'.count.symm.trans h.count, fun i _ hi ↦ h'.refs i hi⟩
  · rintro ⟨hcount, hrefs⟩
    refine ⟨h.count.trans hcount.symm, fun i hi ↦ ?_⟩
    rcases Nat.lt_or_ge i c.refCount.toNat with hlt | hge
    · exact h.refs i hlt
    · exact hrefs i hge hi

namespace Session

/-- A callable stays as it is until a later layer declares it again. -/
theorem Leads.callable? {s t : Session} (h : s.Leads t) (hs : s.Reachable) {owner : Owner}
    {c : Callable} (hc : s.program.callable? owner = some c) :
    s.program.depth ≤ t.program.depth ∧
      ∃ c', t.program.callable? owner = some c' ∧ (c' = c ∨ s.program.depth < c'.depth) := by
  induction h with
  | refl => exact ⟨Nat.le_refl _, c, hc, .inl rfl⟩
  | @tail t u hleads hlayer ih =>
    obtain ⟨source, rfl⟩ := hlayer
    obtain ⟨hle, c', hc', hcases⟩ := ih
    have ht := (Leads.reachable hleads hs).sound
    have hdepth := (keeps_compileLayer ht source).2
    refine ⟨by omega, ?_⟩
    rcases (follows_compileLayer ht source).callables owner with heq | ⟨-, c'', hc'', hnew⟩
    · exact ⟨c', heq.trans hc', hcases⟩
    · exact ⟨c'', hc'', .inr (by omega)⟩

theorem Reachable.depth_of_accepted {s s' : Session} {source : String} {depth : Nat}
    (hs : s.Reachable) (h : s.compileLayer source = (.ok depth, s')) :
    s'.program.depth = depth := by
  obtain ⟨rfl, -, -⟩ := compileLayer_ok h
  have hkeeps := (keeps_compileLayer hs.sound source).2
  rwa [h] at hkeeps

/-- Every call in the code of an accepted layer calls what has its name, with operands that fit. -/
theorem Reachable.calls_of_parts {s s' : Session} {source : String} {depth : Nat} (hs : s.Reachable)
    (h : s.compileLayer source = (.ok depth, s')) {id : ScopeId} {t : Scope}
    (ht : s'.program.scope? id = some t) (hdepth : t.depth = depth) {target : CallTarget}
    {n : UInt16} {name : String} {args : List Operand}
    (hcall : .call target n name args ∈ t.parts) :
    s'.program.Calls s.vocabulary name target n args := by
  obtain ⟨rfl, -, -⟩ := compileLayer_ok h
  obtain ⟨items, -, hcompiled⟩ := hs.compiled h
  obtain ⟨i, hi, hpart⟩ := List.mem_flatMap.1 hcall
  have hwell := (hcompiled.filled ht hdepth).wellFormed ht i hi
  exact (operandsWellFormed_parts hwell.args _ hpart).1

end Session

/-- Take a call of a function or a script, anywhere in the code of an accepted layer, and let the
session go on. The code stays, and the id in it stays the slot of the callable with the name of the
call. The operands fit the callee of the layer. What the callee is later is that or a declaration of
a later layer, and the operands fit it exactly if it has as many parameters and if operands that
only it takes by reference are variables. -/
theorem overridden_call_fits_iff {s s₁ s₂ : Session} {source : String} {depth : Nat}
    (hs : s.Reachable) (h : s.compileLayer source = (.ok depth, s₁)) (hleads : s₁.Leads s₂)
    {id : ScopeId} {t : Scope} (ht : s₁.program.scope? id = some t) (hdepth : t.depth = depth)
    {target : CallTarget} {n : UInt16} {name : String} {args : List Operand}
    (hcall : .call target n name args ∈ t.parts) {owner : Owner}
    (howner : CallRef.owner? ⟨target, n, name⟩ = some owner) :
    s₂.program.scope? id = some t ∧ ∃ slot c₁ c₂, CallRef.slot? ⟨target, n, name⟩ = some slot ∧
      s₁.program.slot? owner = some slot ∧ s₂.program.slot? owner = some slot ∧
      s₁.program.callable? owner = some c₁ ∧ s₂.program.callable? owner = some c₂ ∧
      (c₂ = c₁ ∨ depth < c₂.depth) ∧ c₁.Takes args ∧
      (c₂.Takes args ↔ c₂.params.length = c₁.params.length ∧
        ∀ i, c₁.refCount.toNat ≤ i → i < c₂.refCount.toNat →
          ∃ var, args[i]? = some (.var var)) := by
  obtain ⟨slot, hslot⟩ := CallRef.slot?_of_owner? howner
  have hcalls := hs.calls_of_parts h ht hdepth hcall
  obtain ⟨c₁, hc₁, htakes⟩ := hcalls.takes howner
  have hslot₁ := (hcalls.resolves owner howner).trans hslot
  have hs₁ := hs.next h
  have hdepth₁ : s₁.program.depth = depth := hs.depth_of_accepted h
  obtain ⟨-, c₂, hc₂, hcases⟩ := hleads.callable? hs₁ hc₁
  exact ⟨hleads.scope? hs₁ ht, slot, c₁, c₂, hslot, hslot₁, hleads.slot? hs₁ hslot₁, hc₁, hc₂,
    hdepth₁ ▸ hcases, htakes, htakes.iff_of_takes⟩

namespace Sample

/-- What is called, and with how many operands. -/
def calls (s : Scope) : List (CallRef × Nat) :=
  s.parts.filterMap fun
    | .call target id name args => some (⟨target, id, name⟩, args.length)
    | _ => none

theorem exists_call_of_mem {s : Scope} {r : CallRef} {n : Nat} (h : (r, n) ∈ calls s) :
    ∃ args, .call r.target r.id r.name args ∈ s.parts ∧ args.length = n := by
  obtain ⟨o, ho, heq⟩ := List.mem_filterMap.1 h
  cases o with
  | call target id name args =>
    cases heq
    exact ⟨args, ho, rfl⟩
  | number | text | var | global | raw | not | binary => contradiction

/-- A function and a call of it. -/
def caller : String :=
  "fn f(a) \x7b \x7d
script main() \x7b f(1) \x7d"

/-- The function again, with another body. -/
def sameParams : String :=
  "fn f(b) \x7b return b \x7d"

/-- The function again, without its parameter. -/
def noParams : String :=
  "fn f() \x7b \x7d"

/-- The session with the call in it. -/
def called : Session :=
  (start.compileLayer caller).2

/-- The call is accepted, in the body of `main`, and both redeclarations are accepted behind it. -/
theorem called_runs :
    (start.compileLayer caller).1.toOption = some 1 ∧
      (called.program.scope? 1).map (fun t ↦ (t.depth, calls t))
        = some (1, [(⟨.function, 0, "f"⟩, 1)]) ∧
      (called.program.callable? (.function "f")).map (fun c ↦ (c.params.length, c.refCount))
        = some (1, 0) ∧
      (called.compileLayer sameParams).1.toOption = some 2 ∧
      ((called.compileLayer sameParams).2.program.callable? (.function "f")).map
        (fun c ↦ (c.depth, c.params.length, c.refCount)) = some (2, 1, 0) ∧
      (called.compileLayer noParams).1.toOption = some 2 ∧
      (called.compileLayer noParams).2.program.slot? (.function "f") = some (.function 0) ∧
      (called.compileLayer noParams).2.program.main.bind (·.body) = some 1 ∧
      ((called.compileLayer noParams).2.program.callable? (.function "f")).map (·.params.length)
        = some 0 := by
  decide +kernel

theorem called_accepted : start.compileLayer caller = (.ok 1, called) :=
  accepted_of_fst called_runs.1

theorem called_calls : ∃ t args, called.program.scope? 1 = some t ∧ t.depth = 1 ∧
    .call .function 0 "f" args ∈ t.parts ∧ args.length = 1 := by
  obtain ⟨-, hcalls, -⟩ := called_runs
  obtain ⟨t, ht, heq⟩ := Option.map_eq_some_iff.1 hcalls
  obtain ⟨hdepth, hmem⟩ := Prod.mk.inj heq
  obtain ⟨args, hcall, hlength⟩ := exists_call_of_mem (hmem ▸ List.mem_singleton_self _)
  exact ⟨t, args, ht, hdepth, hcall, hlength⟩

end Sample

/-- A function that is declared again with as many parameters takes the operands of the call that is
there. -/
theorem overridden_call_fits_iff_sample :
    ∃ s t args c, Sample.called.compileLayer Sample.sameParams = (.ok 2, s) ∧
      s.program.scope? 1 = some t ∧ .call .function 0 "f" args ∈ t.parts ∧
      s.program.slot? (.function "f") = some (.function 0) ∧
      s.program.callable? (.function "f") = some c ∧ c.depth = 2 ∧ c.Takes args := by
  obtain ⟨t, args, ht, hdepth, hcall, -⟩ := Sample.called_calls
  have hleads : Sample.called.Leads (Sample.called.compileLayer Sample.sameParams).2 :=
    .single ⟨Sample.sameParams, rfl⟩
  obtain ⟨hscope, slot, c₁, c₂, hslot, -, hslot₂, hc₁, hc₂, -, -, hiff⟩ := overridden_call_fits_iff
    Sample.reachable_start Sample.called_accepted hleads ht hdepth hcall rfl
  cases hslot
  obtain ⟨-, -, hold, haccepted, hnew, -⟩ := Sample.called_runs
  rw [hc₁] at hold
  rw [hc₂] at hnew
  simp only [Option.map_some, Option.some.injEq, Prod.mk.injEq] at hold hnew
  obtain ⟨hparams₁, hrefs₁⟩ := hold
  obtain ⟨hdepth₂, hparams₂, hrefs₂⟩ := hnew
  refine ⟨_, t, args, c₂, Sample.accepted_of_fst haccepted, hscope, hcall, hslot₂, hc₂,
    hdepth₂, hiff.2 ⟨hparams₂.trans hparams₁.symm, fun i _ hi ↦ ?_⟩⟩
  rw [hrefs₂] at hi
  exact absurd hi (Nat.not_lt_zero i)

/-- A redeclaration is accepted that does not take the operands of the call that is there. The call
is in the body of `main`, which is still the one that runs. -/
theorem override_breaks_caller :
    ∃ s t args c, Sample.called.compileLayer Sample.noParams = (.ok 2, s) ∧
      s.program.main.bind (·.body) = some 1 ∧ s.program.scope? 1 = some t ∧
      .call .function 0 "f" args ∈ t.parts ∧
      s.program.slot? (.function "f") = some (.function 0) ∧
      s.program.callable? (.function "f") = some c ∧ ¬c.Takes args := by
  obtain ⟨t, args, ht, -, hcall, hlength⟩ := Sample.called_calls
  have hleads : Sample.called.Leads (Sample.called.compileLayer Sample.noParams).2 :=
    .single ⟨Sample.noParams, rfl⟩
  have hcalled := Sample.reachable_start.next Sample.called_accepted
  obtain ⟨-, -, -, -, -, haccepted, hslot, hmain, hnew⟩ := Sample.called_runs
  obtain ⟨c, hc, hparams⟩ := Option.map_eq_some_iff.1 hnew
  refine ⟨_, t, args, c, Sample.accepted_of_fst haccepted, hmain,
    hleads.scope? hcalled ht, hcall, hslot, hc, fun htakes ↦ ?_⟩
  exact absurd (hlength.symm.trans (htakes.count.trans hparams)) (by decide)

end CharacterScript
