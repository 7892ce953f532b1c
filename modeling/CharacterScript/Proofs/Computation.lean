/-!
# Computations that can fail and keep their state

Declaring and lowering are written in `EStateM`: a step gives a value or a problem, and a state
either way. Two ways of talking about such a step are set up here, once for all of them.

## Two ways

A step that succeeded is taken apart by `bind_eq_ok`: a sequence succeeded exactly when its first
part did and the second part did from there. What a step may do to the state *whether it succeeds
or not* is a statement about `after`, the state it leaves; `after_bind` composes it along a
transitive relation, so that every such statement is proved one primitive step at a time.

## Why not triples

A triple says what holds afterwards if a step succeeds. Half of what is needed here is about steps
that fail: a layer that is refused leaves its program in the session, and later layers go on from
that. So the state that is left is named by a function of the step and of the state before it, and
relations between the two are composed like the steps are.
-/

namespace CharacterScript

namespace Running

variable {ε σ α β : Type}

/-! ## Success -/

theorem bind_eq_ok {x : EStateM ε σ α} {f : α → EStateM ε σ β} {s s' : σ} {b : β} :
    (x >>= f) s = .ok b s' ↔ ∃ a t, x s = .ok a t ∧ f a t = .ok b s' := by
  show EStateM.bind x f s = _ ↔ _
  rw [EStateM.bind]
  cases h : x s with
  | ok a t =>
    constructor
    · intro hf
      exact ⟨a, t, rfl, hf⟩
    · rintro ⟨_, _, ⟨⟩, hf⟩
      exact hf
  | error e t => simp

theorem bind_of_ok {x : EStateM ε σ α} {f : α → EStateM ε σ β} {s t : σ} {a : α}
    (h : x s = .ok a t) : (x >>= f) s = f a t := by
  show EStateM.bind x f s = _
  rw [EStateM.bind, h]

theorem bind_of_error {x : EStateM ε σ α} {f : α → EStateM ε σ β} {s t : σ} {e : ε}
    (h : x s = .error e t) : (x >>= f) s = .error e t := by
  show EStateM.bind x f s = _
  rw [EStateM.bind, h]

theorem pure_eq_ok {a b : α} {s s' : σ} :
    (pure a : EStateM ε σ α) s = .ok b s' ↔ a = b ∧ s = s' := by
  show EStateM.Result.ok a s = _ ↔ _
  simp

theorem get_bind {f : σ → EStateM ε σ β} {s : σ} : (get >>= f) s = f s s := rfl

theorem modify_bind {g : σ → σ} {f : PUnit → EStateM ε σ β} {s : σ} :
    (modify g >>= f) s = f ⟨⟩ (g s) := rfl

theorem modify_apply {g : σ → σ} {s : σ} : (modify g : EStateM ε σ PUnit) s = .ok ⟨⟩ (g s) := rfl

theorem modify_ne_error {g : σ → σ} {e : ε} {s s' : σ} :
    (modify g : EStateM ε σ PUnit) s ≠ .error e s' := by
  rw [modify_apply]
  exact nofun

theorem pure_ne_error {a : α} {e : ε} {s s' : σ} : (pure a : EStateM ε σ α) s ≠ .error e s' := by
  show EStateM.Result.ok a s ≠ _
  simp

theorem throw_ne_ok {e : ε} {s s' : σ} {a : α} : (throw e : EStateM ε σ α) s ≠ .ok a s' := by
  show EStateM.Result.error e s ≠ _
  simp

/-- The same for a question that has an answer or a problem and no state. -/
theorem exceptBind_eq_ok {x : Except ε α} {f : α → Except ε β} {b : β} :
    (x >>= f) = .ok b ↔ ∃ a, x = .ok a ∧ f a = .ok b := by
  cases x <;> simp [bind, Except.bind]

theorem toOption_eq_some {x : Except ε α} {a : α} : x.toOption = some a ↔ x = .ok a := by
  cases x <;> simp [Except.toOption]

/-! ## The state left behind -/

/-- The state a step leaves, whether it succeeded or not. -/
def after (x : EStateM ε σ α) (s : σ) : σ :=
  match x s with
  | .ok _ t => t
  | .error _ t => t

theorem after_of_ok {x : EStateM ε σ α} {s t : σ} {a : α} (h : x s = .ok a t) :
    after x s = t := by
  rw [after, h]

theorem after_of_error {x : EStateM ε σ α} {s t : σ} {e : ε} (h : x s = .error e t) :
    after x s = t := by
  rw [after, h]

theorem eq_ok_of_run' {x : EStateM ε σ α} {s : σ} {a : α} (h : x.run' s = some a) :
    x s = .ok a (after x s) := by
  have hrun : EStateM.run' (fun _ ↦ x s) s = some a := h
  cases hx : x s with
  | ok b t =>
    rw [hx] at hrun
    obtain rfl : b = a := Option.some.inj hrun
    rw [after_of_ok hx]
  | error e t =>
    rw [hx] at hrun
    exact absurd hrun.symm (Option.some_ne_none a)

@[simp] theorem after_modify (g : σ → σ) (s : σ) :
    after (modify g : EStateM ε σ PUnit) s = g s := rfl

theorem after_get_bind (f : σ → EStateM ε σ β) (s : σ) : after (get >>= f) s = after (f s) s := rfl

theorem after_modify_bind (g : σ → σ) (f : PUnit → EStateM ε σ β) (s : σ) :
    after (modify g >>= f) s = after (f ⟨⟩) (g s) := rfl

theorem after_bind_of_ok {x : EStateM ε σ α} {f : α → EStateM ε σ β} {s t : σ} {a : α}
    (h : x s = .ok a t) : after (x >>= f) s = after (f a) t := by
  rw [after, bind_of_ok h]
  rfl

theorem after_bind_of_error {x : EStateM ε σ α} {f : α → EStateM ε σ β} {s t : σ} {e : ε}
    (h : x s = .error e t) : after (x >>= f) s = t := by
  rw [after, bind_of_error h]

/-- A sequence moves the state along a transitive relation if each of its parts does. The second
part is only asked about from where the first one succeeded. -/
theorem after_bind {R : σ → σ → Prop} (htrans : ∀ {a b c}, R a b → R b c → R a c)
    {x : EStateM ε σ α} {f : α → EStateM ε σ β} {s : σ} (hx : R s (after x s))
    (hf : ∀ a t, x s = .ok a t → R t (after (f a) t)) : R s (after (x >>= f) s) := by
  cases h : x s with
  | ok a t =>
    rw [after_of_ok h] at hx
    rw [after_bind_of_ok h]
    exact htrans hx (hf a t h)
  | error e t =>
    rw [after_of_error h] at hx
    rw [after_bind_of_error h]
    exact hx

end Running

end CharacterScript
