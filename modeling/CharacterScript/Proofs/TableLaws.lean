import CharacterScript.Table

/-!
# Laws of tables

Everything a table answers is an answer about its entries: `indexOf?_eq_some_iff` and
`get?_eq_some_iff` say so, and the laws of `insert`, `modifyAt` and `map` follow from what these do
to the entries. A name has one place, so the entries of a table have pairwise different names.

## Places

A table gives each name a place, and the place is what ids are. So the laws come in two forms, by
name and by place, and the second says what the first does not: a value that is put in under a
name that is there goes to the old place, and every other name stays where it is. That names form
a prefix of the names afterwards is the shortest way to say so.
-/

namespace CharacterScript

namespace Table

variable {α β : Type}

/-! ## Looking up

There is no name twice in the list of names, and the place of a name is its index there. -/

theorem indexOf?_eq_some_iff {t : Table α} {name : String} {i : Nat} :
    t.indexOf? name = some i ↔ ∃ a, t.at? i = some (name, a) :=
  t.index_iff name i

theorem get?_eq_some_iff {t : Table α} {name : String} {a : α} :
    t.get? name = some a ↔ ∃ i, t.at? i = some (name, a) := by
  rw [get?]
  constructor
  · intro h
    cases hi : t.indexOf? name with
    | none => simp [hi] at h
    | some i =>
      obtain ⟨b, hb⟩ := indexOf?_eq_some_iff.1 hi
      simp only [hi, hb, Option.map_some, Option.some.injEq] at h
      exact ⟨i, h ▸ hb⟩
  · rintro ⟨i, hi⟩
    simp only [indexOf?_eq_some_iff.2 ⟨a, hi⟩, hi, Option.map_some]

/-- A name that has a place has a value there. -/
theorem get?_of_indexOf? {t : Table α} {name : String} {i : Nat} (h : t.indexOf? name = some i) :
    ∃ a, t.get? name = some a ∧ t.at? i = some (name, a) := by
  obtain ⟨a, ha⟩ := indexOf?_eq_some_iff.1 h
  exact ⟨a, get?_eq_some_iff.2 ⟨i, ha⟩, ha⟩

theorem indexOf?_of_get? {t : Table α} {name : String} {a : α} (h : t.get? name = some a) :
    ∃ i, t.indexOf? name = some i ∧ t.at? i = some (name, a) := by
  obtain ⟨i, hi⟩ := get?_eq_some_iff.1 h
  exact ⟨i, indexOf?_eq_some_iff.2 ⟨a, hi⟩, hi⟩

theorem get?_eq_none_iff {t : Table α} {name : String} :
    t.get? name = none ↔ t.indexOf? name = none := by
  cases hi : t.indexOf? name with
  | none => simp [get?, hi]
  | some i =>
    obtain ⟨a, ha, -⟩ := get?_of_indexOf? hi
    simp [ha]

/-- Two places with the same name are the same place. -/
theorem place_unique {t : Table α} {name : String} {i j : Nat} {a b : α}
    (hi : t.at? i = some (name, a)) (hj : t.at? j = some (name, b)) : i = j := by
  have h := (indexOf?_eq_some_iff.2 ⟨a, hi⟩).symm.trans (indexOf?_eq_some_iff.2 ⟨b, hj⟩)
  exact Option.some.inj h

theorem mem_toList_iff {t : Table α} {e : String × α} :
    e ∈ t.toList ↔ ∃ i, t.at? i = some e := by
  rw [toList, List.mem_iff_getElem?]
  simp [at?]

theorem mem_toList_iff_get? {t : Table α} {name : String} {a : α} :
    (name, a) ∈ t.toList ↔ t.get? name = some a := by
  rw [mem_toList_iff, get?_eq_some_iff]

theorem mem_values_iff {t : Table α} {a : α} : a ∈ t.values ↔ ∃ name, t.get? name = some a := by
  rw [values, List.mem_map]
  constructor
  · rintro ⟨⟨name, b⟩, hmem, rfl⟩
    exact ⟨name, mem_toList_iff_get?.1 hmem⟩
  · rintro ⟨name, h⟩
    exact ⟨(name, a), mem_toList_iff_get?.2 h, rfl⟩

theorem length_values (t : Table α) : t.values.length = t.size := by
  simp [values, toList, size]

/-- The names of a table are pairwise different. -/
theorem nodup_names (t : Table α) : t.names.Nodup := by
  rw [List.Nodup, List.pairwise_iff_getElem]
  intro i j hi hj hij heq
  have hget : ∀ k (hk : k < t.names.length), ∃ a, t.at? k = some (t.names[k], a) := by
    intro k hk
    have hk' : k < t.entries.size := by simpa [names, toList] using hk
    exact ⟨(t.entries[k]).2, by simp [at?, names, toList, hk']⟩
  obtain ⟨a, ha⟩ := hget i hi
  obtain ⟨b, hb⟩ := hget j hj
  rw [heq] at ha
  exact absurd (place_unique ha hb) (by omega)

theorem mem_names_iff {t : Table α} {name : String} :
    name ∈ t.names ↔ ∃ a, t.get? name = some a := by
  rw [names, List.mem_map]
  constructor
  · rintro ⟨⟨_, a⟩, ha, rfl⟩
    exact ⟨a, mem_toList_iff_get?.1 ha⟩
  · rintro ⟨a, ha⟩
    exact ⟨(name, a), mem_toList_iff_get?.2 ha, rfl⟩

/-- The place of a name is its place among the names. -/
theorem indexOf?_eq_some_iff_names {t : Table α} {name : String} {i : Nat} :
    t.indexOf? name = some i ↔ t.names[i]? = some name := by
  rw [indexOf?_eq_some_iff, names, List.getElem?_map, toList, Array.getElem?_toList,
    Option.map_eq_some_iff]
  constructor
  · rintro ⟨a, ha⟩
    exact ⟨(name, a), ha, rfl⟩
  · rintro ⟨⟨_, a⟩, ha, rfl⟩
    exact ⟨a, ha⟩

theorem indexOf?_of_names {t : Table α} {u : Table β} (h : t.names = u.names) (name : String) :
    t.indexOf? name = u.indexOf? name := by
  apply Option.ext
  intro i
  rw [indexOf?_eq_some_iff_names, indexOf?_eq_some_iff_names, h]

/-- Where the names go on, those that were there keep their places. -/
theorem indexOf?_of_names_prefix {t : Table α} {u : Table β} (h : t.names <+: u.names)
    {name : String} {i : Nat} (hi : t.indexOf? name = some i) : u.indexOf? name = some i := by
  rw [indexOf?_eq_some_iff_names] at hi ⊢
  obtain ⟨more, hmore⟩ := h
  rw [← hmore, List.getElem?_append_left (List.getElem?_eq_some_iff.1 hi).1, hi]

/-! ## Putting in -/

theorem at?_empty (i : Nat) : (empty : Table α).at? i = none := by
  simp [at?, empty]

theorem get?_empty (name : String) : (empty : Table α).get? name = none := by
  cases h : (empty : Table α).get? name with
  | none => rfl
  | some a =>
    obtain ⟨i, hi⟩ := get?_eq_some_iff.1 h
    rw [at?_empty] at hi
    contradiction

theorem entries_insert_of_some {t : Table α} {name : String} {k : Nat} (a : α)
    (h : t.indexOf? name = some k) :
    (t.insert name a).entries = t.entries.setIfInBounds k (name, a) := by
  rw [insert]
  split
  next j hj =>
    obtain rfl : j = k := Option.some.inj (hj.symm.trans h)
    rfl
  next hnone => exact nomatch hnone.symm.trans h

theorem entries_insert_of_none {t : Table α} {name : String} (a : α)
    (h : t.indexOf? name = none) : (t.insert name a).entries = t.entries.push (name, a) := by
  rw [insert]
  split
  next j hj => exact nomatch hj.symm.trans h
  next => rfl

/-- A name that is in the table keeps its place and gets the new value. -/
theorem at?_insert_of_some {t : Table α} {name : String} {k : Nat} (a : α)
    (h : t.indexOf? name = some k) (i : Nat) :
    (t.insert name a).at? i = if i = k then some (name, a) else t.at? i := by
  obtain ⟨old, hold⟩ := indexOf?_eq_some_iff.1 h
  have hk : k < t.entries.size := (Array.getElem?_eq_some_iff.1 hold).1
  rw [at?, entries_insert_of_some a h, Array.getElem?_setIfInBounds]
  by_cases hi : i = k
  · subst hi
    simp [hk]
  · rw [if_neg (Ne.symm hi), if_neg hi, at?]

/-- A new name is put behind all others. -/
theorem at?_insert_of_none {t : Table α} {name : String} (a : α) (h : t.indexOf? name = none)
    (i : Nat) : (t.insert name a).at? i = if i = t.size then some (name, a) else t.at? i := by
  rw [at?, entries_insert_of_none a h, Array.getElem?_push, size, at?]

theorem get?_insert_self (t : Table α) (name : String) (a : α) :
    (t.insert name a).get? name = some a := by
  rw [get?_eq_some_iff]
  cases h : t.indexOf? name with
  | some k => exact ⟨k, by rw [at?_insert_of_some a h, if_pos rfl]⟩
  | none => exact ⟨t.size, by rw [at?_insert_of_none a h, if_pos rfl]⟩

theorem get?_insert_of_ne {t : Table α} {name other : String} (a : α) (hne : other ≠ name) :
    (t.insert name a).get? other = t.get? other := by
  -- it is enough to compare what is found: the places of other names do not move
  have key : ∀ b, (t.insert name a).get? other = some b ↔ t.get? other = some b := by
    intro b
    rw [get?_eq_some_iff, get?_eq_some_iff]
    cases h : t.indexOf? name with
    | some k =>
      obtain ⟨old, hold⟩ := indexOf?_eq_some_iff.1 h
      constructor
      · rintro ⟨i, hi⟩
        rw [at?_insert_of_some a h] at hi
        by_cases hik : i = k
        · rw [if_pos hik] at hi
          exact absurd (Prod.mk.inj (Option.some.inj hi)).1.symm hne
        · exact ⟨i, by rwa [if_neg hik] at hi⟩
      · rintro ⟨i, hi⟩
        refine ⟨i, ?_⟩
        rw [at?_insert_of_some a h, if_neg, hi]
        rintro rfl
        exact hne (Prod.mk.inj (Option.some.inj (hi.symm.trans hold))).1
    | none =>
      constructor
      · rintro ⟨i, hi⟩
        rw [at?_insert_of_none a h] at hi
        by_cases his : i = t.size
        · rw [if_pos his] at hi
          exact absurd (Prod.mk.inj (Option.some.inj hi)).1.symm hne
        · exact ⟨i, by rwa [if_neg his] at hi⟩
      · rintro ⟨i, hi⟩
        refine ⟨i, ?_⟩
        rw [at?_insert_of_none a h, if_neg, hi]
        have : i < t.entries.size := (Array.getElem?_eq_some_iff.1 hi).1
        rw [size]
        omega
  cases h : t.get? other with
  | some b => exact (key b).2 h
  | none =>
    cases h' : (t.insert name a).get? other with
    | none => rfl
    | some b => exact nomatch ((key b).1 h').symm.trans h

theorem get?_insert (t : Table α) (name other : String) (a : α) :
    (t.insert name a).get? other = if other = name then some a else t.get? other := by
  by_cases h : other = name
  · rw [if_pos h, h, get?_insert_self]
  · rw [if_neg h, get?_insert_of_ne a h]

theorem toList_insert_of_none {t : Table α} {name : String} (a : α) (h : t.indexOf? name = none) :
    (t.insert name a).toList = t.toList ++ [(name, a)] := by
  rw [toList, entries_insert_of_none a h, Array.toList_push, toList]

/-- Entries with different names all come in, in their order. -/
theorem toList_ofList {entries : List (String × α)} (h : (entries.map (·.1)).Nodup) :
    (ofList entries).toList = entries := by
  have key : ∀ t : Table α, (t.names ++ entries.map (·.1)).Nodup →
      (entries.foldl (fun t e ↦ t.insert e.1 e.2) t).toList = t.toList ++ entries := by
    clear h
    induction entries with
    | nil => exact fun t _ ↦ (List.append_nil _).symm
    | cons e entries ih =>
      intro t hnodup
      obtain ⟨name, a⟩ := e
      have hnew : name ∉ t.names := fun hmem ↦
        (List.nodup_append.1 hnodup).2.2 name hmem name List.mem_cons_self rfl
      have hnone : t.indexOf? name = none := by
        rw [← get?_eq_none_iff, Option.eq_none_iff_forall_ne_some]
        exact fun b hb ↦ hnew (mem_names_iff.2 ⟨b, hb⟩)
      have hlist := toList_insert_of_none a hnone
      rw [List.foldl_cons, ih, hlist, List.append_assoc, List.singleton_append]
      rw [names, hlist]
      simpa [names] using hnodup
  exact key empty h

/-- A new name comes last, and any other is there already. -/
theorem names_insert (t : Table α) (name : String) (a : α) :
    (t.insert name a).names = if t.contains name then t.names else t.names ++ [name] := by
  rw [contains]
  cases h : t.indexOf? name with
  | none =>
    rw [names, toList_insert_of_none a h, List.map_append]
    rfl
  | some k =>
    obtain ⟨old, hold⟩ := indexOf?_eq_some_iff.1 h
    show (t.insert name a).names = t.names
    rw [names, toList, entries_insert_of_some a h, names, toList]
    apply List.ext_getElem?
    intro i
    simp only [List.getElem?_map, Array.getElem?_toList, Array.getElem?_setIfInBounds]
    split
    next hi =>
      subst hi
      have hat : t.entries[k]? = some (name, old) := hold
      rw [if_pos (Array.getElem?_eq_some_iff.1 hat).1, hat]
      rfl
    next => rfl

theorem mem_names_insert {t : Table α} {name other : String} {a : α} :
    other ∈ (t.insert name a).names ↔ other ∈ t.names ∨ other = name := by
  rw [mem_names_iff, mem_names_iff, get?_insert]
  by_cases h : other = name
  · simp [h]
  · simp [h]

theorem names_prefix_insert (t : Table α) (name : String) (a : α) :
    t.names <+: (t.insert name a).names := by
  rw [names_insert]
  split
  · exact List.prefix_rfl
  · exact List.prefix_append _ _

/-- Whatever holds of the old values and of the new one holds of all values afterwards. -/
theorem forall_values_insert {t : Table α} {name : String} {a : α} {P : α → Prop}
    (h : ∀ b ∈ t.values, P b) (ha : P a) : ∀ b ∈ (t.insert name a).values, P b := by
  intro b hb
  obtain ⟨other, hother⟩ := mem_values_iff.1 hb
  rw [get?_insert] at hother
  by_cases hne : other = name
  · rw [if_pos hne] at hother
    exact Option.some.inj hother ▸ ha
  · rw [if_neg hne] at hother
    exact h b (mem_values_iff.2 ⟨other, hother⟩)

theorem forall_values_empty {P : α → Prop} : ∀ b ∈ (empty : Table α).values, P b := by
  intro b hb
  simp [values, toList, empty] at hb

/-! ## Changing values in place

A function that changes values leaves the names alone, so nothing about places has to be proved
again. -/

@[simp] theorem indexOf?_modifyAt (t : Table α) (k : Nat) (f : α → α) (name : String) :
    (t.modifyAt k f).indexOf? name = t.indexOf? name := rfl

theorem at?_modifyAt (t : Table α) (k : Nat) (f : α → α) (i : Nat) :
    (t.modifyAt k f).at? i
      = if k = i then (t.at? i).map (fun e ↦ (e.1, f e.2)) else t.at? i := by
  show (t.entries.modify k _)[i]? = _
  rw [Array.getElem?_modify]
  rfl

theorem get?_modifyAt {t : Table α} {name : String} {k : Nat} (f : α → α)
    (hk : t.indexOf? name = some k) (other : String) :
    (t.modifyAt k f).get? other
      = if other = name then (t.get? other).map f else t.get? other := by
  cases hi : t.indexOf? other with
  | none =>
    have hnone : (t.modifyAt k f).get? other = none := get?_eq_none_iff.2 hi
    rw [hnone, get?_eq_none_iff.2 hi]
    simp
  | some i =>
    obtain ⟨a, hget, hat⟩ := get?_of_indexOf? hi
    -- two names are at one place only if they are the same
    have hplace : k = i ↔ other = name := by
      constructor
      · rintro rfl
        obtain ⟨b, -, hb⟩ := get?_of_indexOf? hk
        exact (Prod.mk.inj (Option.some.inj (hat.symm.trans hb))).1
      · rintro rfl
        exact Option.some.inj (hk.symm.trans hi)
    by_cases heq : other = name
    · rw [if_pos heq, hget, Option.map_some, get?_eq_some_iff]
      exact ⟨i, by rw [at?_modifyAt, if_pos (hplace.2 heq), hat, Option.map_some]⟩
    · rw [if_neg heq, hget, get?_eq_some_iff]
      exact ⟨i, by rw [at?_modifyAt, if_neg (fun h ↦ heq (hplace.1 h)), hat]⟩

@[simp] theorem indexOf?_map (t : Table α) (f : α → β) (name : String) :
    (t.map f).indexOf? name = t.indexOf? name := rfl

@[simp] theorem names_map (t : Table α) (f : α → β) : (t.map f).names = t.names := by
  simp [names, toList, map, Function.comp_def]

theorem at?_map (t : Table α) (f : α → β) (i : Nat) :
    (t.map f).at? i = (t.at? i).map fun e ↦ (e.1, f e.2) := by
  show (t.entries.map _)[i]? = _
  rw [Array.getElem?_map]
  rfl

@[simp] theorem get?_map (t : Table α) (f : α → β) (name : String) :
    (t.map f).get? name = (t.get? name).map f := by
  rw [get?, get?, indexOf?_map]
  cases t.indexOf? name with
  | none => rfl
  | some i =>
    show ((t.map f).at? i).map _ = ((t.at? i).map _).map f
    rw [at?_map, Option.map_map, Option.map_map]
    rfl

/-- A view of a view that shows no more. -/
theorem map_map (t : Table α) (f : α → α) {g : α → β} (h : ∀ a, g (f a) = g a) :
    (t.map f).map g = t.map g := by
  have hentries : (t.entries.map fun e ↦ (e.1, f e.2)).map (fun e ↦ (e.1, g e.2))
      = t.entries.map fun e ↦ (e.1, g e.2) := by
    rw [Array.map_map]
    congr 1
    funext e
    simp [h]
  show Table.mk _ _ _ = Table.mk _ _ _
  congr 1

/-- A change of values that a view does not show leaves the view of the table as it is. -/
theorem map_modifyAt (t : Table α) (k : Nat) {f : α → α} {g : α → β} (h : ∀ a, g (f a) = g a) :
    (t.modifyAt k f).map g = t.map g := by
  have hentries : (t.entries.modify k fun e ↦ (e.1, f e.2)).map (fun e ↦ (e.1, g e.2))
      = t.entries.map fun e ↦ (e.1, g e.2) := by
    apply Array.ext_getElem?
    intro i
    rw [Array.getElem?_map, Array.getElem?_modify, Array.getElem?_map]
    by_cases hi : k = i
    · rw [if_pos hi, Option.map_map]
      congr 1
      funext e
      simp [h]
    · rw [if_neg hi]
  show Table.mk _ _ _ = Table.mk _ _ _
  congr 1

end Table

end CharacterScript
