import Std.Data.TreeMap.Lemmas

/-!
# Tables in order of insertion

A table keeps its entries in the order in which their names were first put in. Putting a name in
again replaces its value and keeps its place, so the place of a name is an id that never changes.
Names are looked up through a search tree beside the entries; the two agree by `Table.index_iff`,
and with it every statement about a table is a statement about its entries alone.

## One invariant

`Table.index_iff` is the invariant, and it is a field: no table without it can be built. Each
operation has to say why its result has it, and nothing else about search trees is ever needed.

Names are kept apart from values in the entries, so a change of a value leaves the index alone.
That is what `modifyAt` and `map` are, and with them ids stay good for free.
-/

namespace CharacterScript

/-- Named entries, in the order they were added, that are found by their names. A name has one
entry. -/
structure Table (α : Type) where
  /-- The names with what they name, in order. -/
  entries : Array (String × α)
  /-- The place of each name. -/
  index : Std.TreeMap String Nat
  /-- The tree knows exactly the names of the entries, each at its place. -/
  index_iff : ∀ (name : String) (i : Nat),
    index[name]? = some i ↔ ∃ a, entries[i]? = some (name, a)

namespace Table

variable {α β : Type}

def empty : Table α where
  entries := #[]
  index := ∅
  index_iff := by simp

instance : Inhabited (Table α) := ⟨empty⟩

def size (t : Table α) : Nat :=
  t.entries.size

/-- The place of a name. -/
def indexOf? (t : Table α) (name : String) : Option Nat :=
  t.index[name]?

/-- The entry at a place. -/
def at? (t : Table α) (i : Nat) : Option (String × α) :=
  t.entries[i]?

def get? (t : Table α) (name : String) : Option α :=
  match t.indexOf? name with
  | some i => (t.at? i).map (·.2)
  | none => none

def contains (t : Table α) (name : String) : Bool :=
  (t.indexOf? name).isSome

def toList (t : Table α) : List (String × α) :=
  t.entries.toList

def names (t : Table α) : List String :=
  t.toList.map (·.1)

def values (t : Table α) : List α :=
  t.toList.map (·.2)

/-! ## Putting in

A new name goes to the end of the entries. A name that is there keeps its place, and only the
entry changes. -/

private theorem index_iff_push (t : Table α) {name : String} (a : α)
    (h : t.index[name]? = none) (n : String) (i : Nat) :
    (t.index.insert name t.entries.size)[n]? = some i ↔
      ∃ b, (t.entries.push (name, a))[i]? = some (n, b) := by
  rw [Std.TreeMap.getElem?_insert, Array.getElem?_push]
  by_cases hn : name = n
  · subst hn
    have hnot : ∀ b, t.entries[i]? ≠ some (name, b) := by
      intro b hb
      have := (t.index_iff name i).2 ⟨b, hb⟩
      simp [h] at this
    by_cases hi : i = t.entries.size
    · simp [hi]
    · simp [hi, hnot, Ne.symm hi]
  · have hc : compare name n ≠ Ordering.eq := by simpa using hn
    rw [if_neg hc, t.index_iff]
    by_cases hi : i = t.entries.size
    · subst hi
      simp [hn]
    · simp [hi]

private theorem index_iff_set (t : Table α) {name : String} {k : Nat} (a : α)
    (h : t.index[name]? = some k) (n : String) (i : Nat) :
    t.index[n]? = some i ↔ ∃ b, (t.entries.setIfInBounds k (name, a))[i]? = some (n, b) := by
  obtain ⟨old, hold⟩ := (t.index_iff name k).1 h
  have hk : k < t.entries.size := (Array.getElem?_eq_some_iff.1 hold).1
  rw [t.index_iff, Array.getElem?_setIfInBounds]
  by_cases hi : k = i
  · subst hi
    rw [hold]
    simp [hk]
  · simp [hi]

/-- Puts a value in under a name: at the name's place if it has one, and else at the end. -/
def insert (t : Table α) (name : String) (a : α) : Table α :=
  match h : t.index[name]? with
  | some k => ⟨t.entries.setIfInBounds k (name, a), t.index, index_iff_set t a h⟩
  | none =>
    let place := t.entries.size
    ⟨t.entries.push (name, a), t.index.insert name place, index_iff_push t a h⟩

/-! ## Changing values in place -/

private theorem index_iff_modify (t : Table α) (k : Nat) (f : α → α) (n : String) (i : Nat) :
    t.index[n]? = some i ↔
      ∃ b, (t.entries.modify k fun (name, a) ↦ (name, f a))[i]? = some (n, b) := by
  rw [t.index_iff, Array.getElem?_modify]
  by_cases hi : k = i
  · subst hi
    simp only [↓reduceIte, Option.map_eq_some_iff, Prod.mk.injEq, Prod.exists]
    constructor
    · rintro ⟨a, ha⟩
      exact ⟨f a, n, a, ha, rfl, rfl⟩
    · rintro ⟨_, m, a, ha, rfl, _⟩
      exact ⟨a, ha⟩
  · simp [hi]

/-- Changes the value at a place, if there is one. -/
def modifyAt (t : Table α) (k : Nat) (f : α → α) : Table α :=
  ⟨t.entries.modify k fun (name, a) ↦ (name, f a), t.index, index_iff_modify t k f⟩

private theorem index_iff_map (t : Table α) (f : α → β) (n : String) (i : Nat) :
    t.index[n]? = some i ↔ ∃ b, (t.entries.map fun (name, a) ↦ (name, f a))[i]? = some (n, b) := by
  rw [t.index_iff, Array.getElem?_map]
  simp only [Option.map_eq_some_iff, Prod.mk.injEq, Prod.exists]
  constructor
  · rintro ⟨a, ha⟩
    exact ⟨f a, n, a, ha, rfl, rfl⟩
  · rintro ⟨_, m, a, ha, rfl, _⟩
    exact ⟨a, ha⟩

/-- Changes every value. -/
def map (t : Table α) (f : α → β) : Table β :=
  ⟨t.entries.map fun (name, a) ↦ (name, f a), t.index, index_iff_map t f⟩

/-- Puts in a list of entries, from the front. -/
def ofList (entries : List (String × α)) : Table α :=
  entries.foldl (fun t (name, a) ↦ t.insert name a) empty

end Table

end CharacterScript
