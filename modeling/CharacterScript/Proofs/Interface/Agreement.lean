import CharacterScript.Problem
import CharacterScript.Proofs.Computation
import CharacterScript.Proofs.TableLaws

/-!
# Two runs that agree

A step is run from two states that are alike. The runs agree if both succeed, with the same value
and in states that are alike again, or both fail, with the same code. Nothing is asked of the states
that failures leave, and nothing of messages or positions, because these are where two runs may
differ.

`Matches` says this of two steps and all states that are alike. It is proved one primitive step at a
time, with `Matches.bind` for sequences; the two steps need not be the same, because the places in a
program that they are compiled at are not.

## Tables

Tables are compared by what is seen of their entries (`Table.view`).

## Failures

A problem has a kind and a position, and two runs on different programs may well differ in the
position. So failures are compared by their codes, and a step that fails in one run only is never
tolerated. The states that failures leave are not compared, because a refused layer has no image.
-/

namespace CharacterScript

namespace Running

variable {σ τ α β : Type}

/-! ## Questions

A question is answered without a state, and agreeing comes down to having the same outcome with
positions forgotten (`coded`). -/

/-- The answer to a question, or the code of the problem with it. -/
def coded (x : Except Problem α) : Except String α :=
  x.mapError Problem.code

theorem coded_bind {x y : Except Problem α} {f g : α → Except Problem β} (h : coded x = coded y)
    (hfg : ∀ a, coded (f a) = coded (g a)) : coded (x >>= f) = coded (y >>= g) := by
  cases x with
  | ok a =>
    cases y with
    | ok b =>
      cases h
      exact hfg a
    | error e => contradiction
  | error e =>
    cases y with
    | ok b => contradiction
    | error e' => exact congrArg Except.error (Except.error.inj h)

/-! ## Steps -/

/-- Both results are successes with related values and states, or both failures with one code. -/
def Agree (R : σ → σ → Prop) (S : α → α → Prop) :
    EStateM.Result Problem σ α → EStateM.Result Problem σ α → Prop
  | .ok a s, .ok b t => S a b ∧ R s t
  | .error e _, .error e' _ => e.code = e'.code
  | _, _ => False

/-- From states that are alike, two steps agree. -/
def Matches (R : σ → σ → Prop) (S : α → α → Prop) (x y : EStateM Problem σ α) : Prop :=
  ∀ s t, R s t → Agree R S (x s) (y t)

variable {R R' : σ → σ → Prop} {S : α → α → Prop} {T : β → β → Prop}

theorem Agree.ok_of_ok {x y : EStateM.Result Problem σ α} (h : Agree R S x y) {a : α} {s : σ}
    (hx : x = .ok a s) : ∃ b t, y = .ok b t ∧ S a b ∧ R s t := by
  subst hx
  cases y with
  | ok b t => exact ⟨b, t, rfl, h⟩
  | error e t => exact h.elim

theorem Agree.error_of_error {x y : EStateM.Result Problem σ α} (h : Agree R S x y) {e : Problem}
    {s : σ} (hx : x = .error e s) : ∃ e' t, y = .error e' t ∧ e.code = e'.code := by
  subst hx
  cases y with
  | ok b t => exact h.elim
  | error e' t => exact ⟨e', t, rfl, h⟩

theorem Agree.exists_ok_iff {x y : EStateM.Result Problem σ α} (h : Agree R S x y) :
    (∃ a s, x = .ok a s) ↔ ∃ b t, y = .ok b t := by
  cases x with
  | ok a s =>
    obtain ⟨b, t, hy, -⟩ := h.ok_of_ok rfl
    exact iff_of_true ⟨a, s, rfl⟩ ⟨b, t, hy⟩
  | error e s =>
    obtain ⟨e', t, rfl, -⟩ := h.error_of_error rfl
    exact iff_of_false nofun nofun

theorem Agree.imp {x y : EStateM.Result Problem σ α} (h : Agree R S x y)
    (hR : ∀ {s t}, R s t → R' s t) : Agree R' S x y := by
  cases x <;> cases y
  case ok.ok => exact ⟨h.1, hR h.2⟩
  all_goals exact h

theorem Agree.symm {x y : EStateM.Result Problem σ α} (h : Agree Eq Eq x y) : Agree Eq Eq y x := by
  cases x <;> cases y
  case ok.ok => exact ⟨h.1.symm, h.2.symm⟩
  case error.error => exact Eq.symm h
  all_goals exact h.elim

theorem Agree.trans {x y z : EStateM.Result Problem σ α} (h : Agree R Eq x y)
    (h' : Agree R' Eq y z) :
    Agree (fun s u ↦ ∃ t, R s t ∧ R' t u) Eq x z := by
  cases x <;> cases y <;> cases z
  case ok.ok.ok => exact ⟨h.1.trans h'.1, _, h.2, h'.2⟩
  case error.error.error => exact Eq.trans h h'
  all_goals first | exact h.elim | exact h'.elim

/-- What becomes of a result when a step follows a success. -/
def andThen (r : EStateM.Result Problem σ α) (f : α → σ → EStateM.Result Problem σ β) :
    EStateM.Result Problem σ β :=
  match r with
  | .ok a s => f a s
  | .error e s => .error e s

theorem bind_eq_andThen (x : EStateM Problem σ α) (f : α → EStateM Problem σ β) (s : σ) :
    (x >>= f) s = andThen (x s) f := by
  show EStateM.bind x f s = _
  rw [EStateM.bind]
  cases x s <;> rfl

theorem Agree.andThen {r r' : EStateM.Result Problem σ α}
    {f g : α → σ → EStateM.Result Problem σ β} (h : Agree R S r r')
    (hfg : ∀ a b s t, r = .ok a s → r' = .ok b t → S a b → R s t → Agree R' T (f a s) (g b t)) :
    Agree R' T (Running.andThen r f) (Running.andThen r' g) := by
  cases r with
  | ok a s =>
    obtain ⟨b, t, rfl, hab, hst⟩ := h.ok_of_ok rfl
    exact hfg a b s t rfl rfl hab hst
  | error e s =>
    obtain ⟨e', t, rfl, hcode⟩ := h.error_of_error rfl
    exact hcode

theorem Agree.bind {x y : EStateM Problem σ α} {f g : α → EStateM Problem σ β} {s t : σ}
    (h : Agree R S (x s) (y t))
    (hfg : ∀ a b s' t', x s = .ok a s' → y t = .ok b t' → S a b → R s' t' →
      Agree R' T (f a s') (g b t')) : Agree R' T ((x >>= f) s) ((y >>= g) t) := by
  rw [bind_eq_andThen, bind_eq_andThen]
  exact h.andThen hfg

namespace Matches

theorem bind {x y : EStateM Problem σ α} {f g : α → EStateM Problem σ β} (hxy : Matches R Eq x y)
    (hfg : ∀ a, Matches R T (f a) (g a)) : Matches R T (x >>= f) (y >>= g) := by
  intro s t hst
  refine (hxy s t hst).bind fun a b s' t' _ _ hab hst' ↦ ?_
  subst hab
  exact hfg a s' t' hst'

theorem pure (a : α) : Matches R Eq (pure a : EStateM Problem σ α) (pure a) :=
  fun _ _ hst ↦ ⟨rfl, hst⟩

theorem refl (x : EStateM Problem σ α) : Matches Eq Eq x x := by
  rintro s _ rfl
  cases h : x s with
  | ok a t => exact ⟨rfl, rfl⟩
  | error e t => exact rfl

theorem symm {x y : EStateM Problem σ α} (h : Matches Eq Eq x y) : Matches Eq Eq y x := by
  rintro s _ rfl
  exact (h s s rfl).symm

/-- A step that agrees with another from every state agrees with what that agrees with. -/
theorem trans_eq {x y z : EStateM Problem σ α} (h : Matches R Eq x y) (h' : Matches Eq Eq y z) :
    Matches R Eq x z := by
  intro s t hst
  refine ((h s t hst).trans (h' t t rfl)).imp ?_
  rintro s' _ ⟨t', hst', rfl⟩
  exact hst'

theorem throw {e e' : Problem} (h : e.code = e'.code) :
    Matches R S (throw e : EStateM Problem σ α) (throw e') :=
  fun _ _ _ ↦ h

/-- A look at the state, when the steps after it agree whatever alike states were seen. -/
theorem get_bind {f g : σ → EStateM Problem σ β}
    (hfg : ∀ s t, R s t → Matches R T (f s) (g t)) : Matches R T (get >>= f) (get >>= g) :=
  fun s t hst ↦ hfg s t hst s t hst

theorem modify {f g : σ → σ} (h : ∀ s t, R s t → R (f s) (g t)) :
    Matches R Eq (modify f : EStateM Problem σ PUnit) (modify g) :=
  fun s t hst ↦ ⟨rfl, h s t hst⟩

/-- A choice that the states do not decide differently. -/
theorem ite {c d : Prop} [Decidable c] [Decidable d] {x x' y y' : EStateM Problem σ α} (hcd : c ↔ d)
    (hxy : Matches R S x y) (hxy' : Matches R S x' y') :
    Matches R S (if c then x else x') (if d then y else y') := by
  by_cases hc : c
  · rw [if_pos hc, if_pos (hcd.1 hc)]
    exact hxy
  · rw [if_neg hc, if_neg (mt hcd.2 hc)]
    exact hxy'

/-- A loop whose rounds agree. -/
theorem foldlM {ι : Type} {f g : α → ι → EStateM Problem σ α}
    (hfg : ∀ a i, Matches R Eq (f a i) (g a i)) (is : List ι) (a : α) :
    Matches R Eq (is.foldlM f a) (is.foldlM g a) := by
  induction is generalizing a with
  | nil => exact .pure a
  | cons i is ih =>
    rw [List.foldlM_cons, List.foldlM_cons]
    exact .bind (hfg a i) ih

theorem forM {ι : Type} {f g : ι → EStateM Problem σ PUnit}
    (hfg : ∀ i, Matches R Eq (f i) (g i)) (is : List ι) :
    Matches R Eq (is.forM f) (is.forM g) := by
  induction is with
  | nil => exact .pure _
  | cons i is ih =>
    rw [List.forM_eq_forM, List.forM_cons, List.forM_cons]
    exact .bind (hfg i) fun _ ↦ ih

end Matches

end Running

/-! ## Tables

A view says what is seen of an entry. Tables with the same view have the same names at the same
places, and each operation on a table is one on its view. -/

theorem both_of_rel {α β : Type} {R : α → β → Prop} {x : Option α} {y : Option β}
    (h : Option.Rel R x y) :
    (x = none ∧ y = none) ∨ ∃ a b, x = some a ∧ y = some b ∧ R a b := by
  cases h with
  | none => exact .inl ⟨rfl, rfl⟩
  | some hab => exact .inr ⟨_, _, rfl, rfl, hab⟩

/-- What looks the same is both there, or both not. -/
theorem both_of_map_eq {α β : Type} {f : α → β} {x y : Option α} (h : x.map f = y.map f) :
    (x = none ∧ y = none) ∨ ∃ a b, x = some a ∧ y = some b ∧ f a = f b := by
  cases x with
  | none => exact .inl ⟨rfl, Option.map_eq_none_iff.1 h.symm⟩
  | some a =>
    obtain ⟨b, hb, heq⟩ := Option.map_eq_some_iff.1 h.symm
    exact .inr ⟨a, b, rfl, hb, heq.symm⟩

namespace Table

variable {α β : Type} {f : α → β}

/-- A table with no more of its entries than `f` shows. -/
def view (f : α → β) (t : Table α) : List (String × β) :=
  t.toList.map fun e ↦ (e.1, f e.2)

variable {t u : Table α}

theorem isSome_get?_of_names {β : Type} {t : Table α} {u : Table β} (h : t.names = u.names)
    (name : String) : (t.get? name).isSome = (u.get? name).isSome := by
  rw [Bool.eq_iff_iff, Option.isSome_iff_exists, Option.isSome_iff_exists, ← mem_names_iff,
    ← mem_names_iff, h]

theorem names_of_view (h : t.view f = u.view f) : t.names = u.names := by
  have hnames := congrArg (List.map (·.1)) h
  simpa [view, names, Function.comp_def] using hnames

theorem indexOf?_of_view (h : t.view f = u.view f) (name : String) :
    t.indexOf? name = u.indexOf? name :=
  indexOf?_of_names (names_of_view h) name

theorem at?_of_view (h : t.view f = u.view f) (i : Nat) :
    (t.at? i).map (fun e ↦ (e.1, f e.2)) = (u.at? i).map fun e ↦ (e.1, f e.2) := by
  have hi := congrArg (·[i]?) h
  simpa [view, toList, at?] using hi

/-- At a place both tables have an entry under one name, or both have none. -/
theorem at?_cases_of_view (h : t.view f = u.view f) (i : Nat) :
    (t.at? i = none ∧ u.at? i = none) ∨
      ∃ name a b, t.at? i = some (name, a) ∧ u.at? i = some (name, b) ∧ f a = f b := by
  obtain hnone | ⟨⟨name, a⟩, ⟨name', b⟩, ht, hu, heq⟩ := both_of_map_eq (at?_of_view h i)
  · exact .inl hnone
  · obtain ⟨rfl, hab⟩ := Prod.mk.inj heq
    exact .inr ⟨name, a, b, ht, hu, hab⟩

theorem get?_of_view (h : t.view f = u.view f) (name : String) :
    (t.get? name).map f = (u.get? name).map f := by
  rw [get?, get?, indexOf?_of_view h]
  cases u.indexOf? name with
  | none => rfl
  | some i =>
    have hat := congrArg (Option.map (·.2)) (at?_of_view h i)
    simpa [Function.comp_def] using hat

theorem size_of_view (h : t.view f = u.view f) : t.size = u.size := by
  have hlength := congrArg List.length h
  simpa [view, toList, size] using hlength

theorem values_of_view (h : t.view f = u.view f) : t.values.map f = u.values.map f := by
  have hvalues := congrArg (List.map (·.2)) h
  simpa [view, values, Function.comp_def] using hvalues

theorem view_insert (h : t.view f = u.view f) (name : String) {a b : α} (hab : f a = f b) :
    (t.insert name a).view f = (u.insert name b).view f := by
  cases ht : t.indexOf? name with
  | none =>
    have hu : u.indexOf? name = none := indexOf?_of_view h name ▸ ht
    rw [view, view, toList_insert_of_none a ht, toList_insert_of_none b hu, List.map_append,
      List.map_append]
    simp only [List.map_cons, hab]
    exact congrArg (· ++ [(name, f b)]) h
  | some k =>
    have hu : u.indexOf? name = some k := indexOf?_of_view h name ▸ ht
    rw [view, view, toList, toList, entries_insert_of_some a ht, entries_insert_of_some b hu,
      Array.toList_setIfInBounds, Array.toList_setIfInBounds, List.map_set, List.map_set, hab]
    exact congrArg (·.set k (name, f b)) h

/-- A change of one value, when what is seen of it afterwards depends on what was seen before. -/
theorem view_modifyAt (h : t.view f = u.view f) (k : Nat) {g g' : α → α}
    (hg : ∀ a b, f a = f b → f (g a) = f (g' b)) :
    (t.modifyAt k g).view f = (u.modifyAt k g').view f := by
  apply List.ext_getElem?
  intro i
  simp only [view, List.getElem?_map, toList, Array.getElem?_toList]
  show ((t.modifyAt k g).at? i).map _ = ((u.modifyAt k g').at? i).map _
  rw [at?_modifyAt, at?_modifyAt]
  split
  next =>
    obtain ⟨ht, hu⟩ | ⟨name, a, b, ht, hu, hab⟩ := at?_cases_of_view h i
    · rw [ht, hu]
      rfl
    · rw [ht, hu]
      simp [hg a b hab]
  next => exact at?_of_view h i

theorem view_map (g : α → α) (t : Table α) : (t.map g).view f = t.view (f ∘ g) := by
  simp [view, toList, map, Function.comp_def]

end Table

end CharacterScript
