import CharacterScript.Proofs.Continuity
import CharacterScript.Proofs.Image.Layout

/-!
# The slots of callables

The header of an image has one slot for `main`, one for every other script and one for every
function. The id of a callable is the number of its slot, and that is what calls are made by. Here a
slot of the header is followed both ways. The slot of a callable holds what was written for the
callable, or nothing if that has no code of the depth of the image (`slotHolds_of_image`); and a
slot that holds something is the slot of a callable (`owner_of_pointerAt?`).

## Order of names

A slot depends on nothing but the order of names. So it stays what it is when a program goes on
(`Program.Follows.slot?`).

## Two tables and one script

Scripts are counted from one and functions from zero, because `main` has the first slot of scripts
whether there is one or not. This is the only difference, and with `Program.slot?` it is not
visible any more: a slot is a number and says whether it is one of scripts or of functions.
-/

namespace CharacterScript

namespace Image

/-- A place in the header of an image that belongs to a script or a function. -/
inductive Slot where
  | script (index : Nat)
  | function (index : Nat)
  deriving DecidableEq

def Header.pointer? (h : Header) : Slot → Option Nat
  | .script i => h.scripts[i]?
  | .function i => h.functions[i]?

/-- The pointer in a slot of an image. -/
def pointerAt? (bytes : List UInt8) (slot : Slot) : Option Nat :=
  (readHeader bytes).bind (·.pointer? slot)

/-- The slot is there. It points to the callable with its code as they are written, or to
nothing. -/
def SlotHolds (v : Vocabulary) (bytes : List UInt8) (slot : Slot) :
    Option (Callable × Scope) → Prop
  | none => pointerAt? bytes slot = some 0
  | some (c, s) => ∃ pointer piece, pointerAt? bytes slot = some pointer ∧ pointer ≠ 0 ∧
      callableBytes v c s = .ok piece ∧ StandsAt bytes pointer piece

end Image

/-! ## Which slot is whose -/

namespace Program

/-- The slot of a callable, by its id. -/
def slot? (p : Program) : Owner → Option Image.Slot
  | .main => p.main.map fun _ ↦ .script 0
  | .script name => (p.scriptId? name).map .script
  | .function name => (p.functions.indexOf? name).map .function

variable {p : Program} {owner : Owner} {slot : Image.Slot}

theorem slot?_script {name : String} {i : Nat} :
    p.slot? (.script name) = some (.script (i + 1)) ↔ p.scripts.indexOf? name = some i := by
  rw [slot?, scriptId?]
  simp

/-- The slots of scripts other than `main` are not the first one. -/
theorem slot?_script_eq {name : String} (h : p.slot? (.script name) = some slot) :
    ∃ i, slot = .script (i + 1) ∧ p.scripts.indexOf? name = some i := by
  rw [slot?, scriptId?, Option.map_map, Option.map_eq_some_iff] at h
  obtain ⟨i, hi, rfl⟩ := h
  exact ⟨i, rfl, hi⟩

theorem slot?_function_eq {name : String} (h : p.slot? (.function name) = some slot) :
    ∃ i, slot = .function i ∧ p.functions.indexOf? name = some i := by
  obtain ⟨i, hi, rfl⟩ := Option.map_eq_some_iff.1 h
  exact ⟨i, rfl, hi⟩

/-- Exactly the callables have slots. -/
theorem slot?_isSome_iff : (∃ slot, p.slot? owner = some slot) ↔
    ∃ c, p.callable? owner = some c := by
  cases owner with
  | main => simp [slot?, callable?]
  | script name =>
    constructor
    · rintro ⟨slot, h⟩
      obtain ⟨i, -, hi⟩ := slot?_script_eq h
      obtain ⟨c, hc, -⟩ := Table.get?_of_indexOf? hi
      exact ⟨c, hc⟩
    · rintro ⟨c, hc⟩
      obtain ⟨i, hi, -⟩ := Table.indexOf?_of_get? hc
      exact ⟨_, slot?_script.2 hi⟩
  | function name =>
    constructor
    · rintro ⟨slot, h⟩
      obtain ⟨i, -, hi⟩ := slot?_function_eq h
      obtain ⟨c, hc, -⟩ := Table.get?_of_indexOf? hi
      exact ⟨c, hc⟩
    · rintro ⟨c, hc⟩
      obtain ⟨i, hi, -⟩ := Table.indexOf?_of_get? hc
      exact ⟨.function i, by rw [slot?, hi, Option.map_some]⟩

/-- A callable keeps its slot when the program goes on. -/
theorem Follows.slot? {depth : Nat} {declares : Owner → Prop} {q : Program}
    (h : p.Follows depth declares q) (hslot : p.slot? owner = some slot) :
    q.slot? owner = some slot := by
  cases owner with
  | main =>
    obtain ⟨c, hc, rfl⟩ := Option.map_eq_some_iff.1 hslot
    have hmain : p.callable? .main = some c := hc
    obtain ⟨c', hc'⟩ := h.callable_isSome hmain
    exact Option.map_eq_some_iff.2 ⟨c', hc', rfl⟩
  | script name =>
    obtain ⟨i, rfl, hi⟩ := slot?_script_eq hslot
    exact slot?_script.2 (Table.indexOf?_of_names_prefix h.scripts hi)
  | function name =>
    obtain ⟨i, rfl, hi⟩ := slot?_function_eq hslot
    exact Option.map_eq_some_iff.2 ⟨i, Table.indexOf?_of_names_prefix h.functions hi, rfl⟩

end Program

/-- Callables keep their slots in all that follows. -/
theorem Session.Leads.slot? {s t : Session} (h : s.Leads t) (hs : s.Reachable) {owner : Owner}
    {slot : Image.Slot} (hslot : s.program.slot? owner = some slot) :
    t.program.slot? owner = some slot := by
  induction h with
  | refl => exact hslot
  | tail hleads hlayer ih =>
    obtain ⟨source, rfl⟩ := hlayer
    exact (follows_compileLayer (Leads.reachable hleads hs).sound source).slot? ih

/-! ## What slots hold

The slots are written in the order of the tables, so the number of a slot is the place in its
table. -/

namespace Image

/-- Pointers made for slots that stand one behind the other lead to what was written for the
slots. -/
private theorem Pointing.get {bytes : List UInt8} : ∀ {slots : List (Option (List UInt8))} {o : Nat}
    {made : List Nat}, Pointing o slots made → StandsAt bytes o (slots.flatMap (·.getD [])) →
      ∀ {i : Nat}, (slots[i]? = some none → made[i]? = some 0) ∧
        ∀ {piece}, slots[i]? = some (some piece) →
          ∃ pointer, made[i]? = some pointer ∧ o ≤ pointer ∧ StandsAt bytes pointer piece
  | [], o, [], _, _, i => by simp
  | none :: slots, o, pointer :: made, ⟨hzero, hrest⟩, h, i => by
    cases i with
    | zero => simp [hzero]
    | succ i => exact hrest.get h
  | some piece :: slots, o, pointer :: made, ⟨hpointer, _, hrest⟩, h, i => by
    rw [List.flatMap_cons, standsAt_append] at h
    cases i with
    | zero =>
      refine ⟨nofun, fun hpiece ↦ ?_⟩
      cases hpiece
      exact ⟨o, by rw [hpointer]; rfl, Nat.le_refl o, h.1⟩
    | succ i =>
      obtain ⟨hnone, hsome⟩ := hrest.get h.2 (i := i)
      refine ⟨hnone, fun hpiece ↦ ?_⟩
      obtain ⟨pointer', hpointer', hle, hstands⟩ := hsome hpiece
      exact ⟨pointer', hpointer', (Nat.le_add_right _ _).trans hle, hstands⟩

namespace Parts

/-- What was written for a slot. -/
def slot? (parts : Parts) : Slot → Option (Option (List UInt8))
  | .script i => parts.scriptSlots[i]?
  | .function i => parts.functionSlots[i]?

/-- The number of a slot among all slots of an image. -/
private def place (parts : Parts) : Slot → Nat
  | .script i => i
  | .function i => parts.scriptSlots.length + i

variable {v : Vocabulary} {parts : Parts} {p : Program} {depth : Nat} {slot : Slot}

namespace Of

private theorem pointerAt?_eq (h : parts.Of v p depth) :
    pointerAt? (parts.bytes p.globals.size) slot = match slot with
      | .script i => parts.scripts[i]?
      | .function i => parts.functions[i]? := by
  rw [pointerAt?, h.readHeader.1]
  cases slot <;> rfl

private theorem getElem?_place (h : parts.Of v p depth) {content : Option (List UInt8)}
    (hslot : parts.slot? slot = some content) :
    parts.slots[parts.place slot]? = some content ∧
      pointerAt? (parts.bytes p.globals.size) slot = parts.pointers[parts.place slot]? := by
  rw [h.pointerAt?_eq]
  cases slot with
  | script i =>
    have hlt : i < parts.scriptSlots.length := (List.getElem?_eq_some_iff.1 hslot).1
    have hlt' : i < parts.scripts.length := h.length_scripts ▸ hlt
    simp only [place, slots, pointers, List.append_assoc]
    rw [List.getElem?_append_left hlt, List.getElem?_append_left hlt']
    exact ⟨hslot, rfl⟩
  | function i =>
    have hlt : i < parts.functionSlots.length := (List.getElem?_eq_some_iff.1 hslot).1
    have hlt' : i < parts.functions.length := h.length_functions ▸ hlt
    simp only [place, slots, pointers, List.append_assoc]
    rw [List.getElem?_append_right (Nat.le_add_right _ _), ← h.length_scripts,
      List.getElem?_append_right (Nat.le_add_right _ _), Nat.add_sub_cancel_left,
      List.getElem?_append_left hlt, List.getElem?_append_left hlt']
    exact ⟨hslot, rfl⟩

theorem pointerAt?_of_none (h : parts.Of v p depth) (hslot : parts.slot? slot = some none) :
    pointerAt? (parts.bytes p.globals.size) slot = some 0 := by
  obtain ⟨hplace, hpointer⟩ := h.getElem?_place hslot
  rw [hpointer]
  exact (h.pointing.get h.readHeader.2).1 hplace

theorem pointerAt?_of_some (h : parts.Of v p depth) {piece : List UInt8}
    (hslot : parts.slot? slot = some (some piece)) :
    ∃ pointer, pointerAt? (parts.bytes p.globals.size) slot = some pointer ∧ pointer ≠ 0 ∧
      StandsAt (parts.bytes p.globals.size) pointer piece := by
  obtain ⟨hplace, hpointer⟩ := h.getElem?_place hslot
  obtain ⟨pointer, hmade, hle, hstands⟩ := (h.pointing.get h.readHeader.2).2 hplace
  -- bodies stand behind the header
  have hpos : 0 < parts.start := by
    rw [start, headerLength]
    omega
  exact ⟨pointer, hpointer.trans hmade, Nat.ne_of_gt (hpos.trans_le hle), hstands⟩

private theorem getElem?_mapM {α β ε : Type} {f : α → Except ε β} {as : List α} {bs : List β}
    (h : as.mapM f = .ok bs) {i : Nat} {a : α} (ha : as[i]? = some a) :
    ∃ b, bs[i]? = some b ∧ f a = .ok b := by
  have hall := mapM_eq_ok h
  obtain ⟨hi, rfl⟩ := List.getElem?_eq_some_iff.1 ha
  have hi' : i < bs.length := hall.length_eq ▸ hi
  exact ⟨bs.get ⟨i, hi'⟩, List.getElem?_eq_getElem hi', hall.get hi hi'⟩

private theorem values_of_indexOf? {t : Table Callable} {name : String} {i : Nat} {c : Callable}
    (hi : t.indexOf? name = some i) (hc : t.get? name = some c) : t.values[i]? = some c := by
  obtain ⟨c', hc', hat⟩ := Table.get?_of_indexOf? hi
  cases hc.symm.trans hc'
  rw [Table.values, List.getElem?_map, Table.toList, Array.getElem?_toList]
  exact Option.map_eq_some_iff.2 ⟨(name, c), hat, rfl⟩

/-- What was written for the slot of a callable was written for that callable. -/
theorem slot?_of_callable (h : parts.Of v p depth) {owner : Owner} {c : Callable}
    (hc : p.callable? owner = some c) (hslot : p.slot? owner = some slot) :
    ∃ content, parts.slot? slot = some content ∧ callableSlot v p depth c = .ok content := by
  obtain ⟨main, rest, heq, -, hmain, hrest⟩ := scriptSlots_eq_ok h.scriptSlots
  cases owner with
  | main =>
    obtain ⟨_, -, rfl⟩ := Option.map_eq_some_iff.1 hslot
    exact ⟨main, by rw [slot?, heq]; rfl, hmain c hc⟩
  | script name =>
    obtain ⟨i, rfl, hi⟩ := Program.slot?_script_eq hslot
    obtain ⟨content, hcontent, hwritten⟩ := getElem?_mapM hrest (values_of_indexOf? hi hc)
    exact ⟨content, by rw [slot?, heq]; exact hcontent, hwritten⟩
  | function name =>
    obtain ⟨i, rfl, hi⟩ := Program.slot?_function_eq hslot
    exact getElem?_mapM h.functionSlots (values_of_indexOf? hi hc)

private theorem indexOf?_of_lt {t : Table Callable} {i : Nat} (h : i < t.size) :
    ∃ name, t.indexOf? name = some i := by
  have hat : t.at? i = some t.entries[i] := Array.getElem?_eq_getElem h
  exact ⟨_, Table.indexOf?_eq_some_iff.2 ⟨_, hat⟩⟩

/-- A slot with a pointer is that of a callable, or it is the first one and the program has no
`main`. -/
theorem owner_of_pointerAt? (h : parts.Of v p depth) {pointer : Nat}
    (hpointer : pointerAt? (parts.bytes p.globals.size) slot = some pointer) (hne : pointer ≠ 0) :
    ∃ owner, p.slot? owner = some slot := by
  obtain ⟨hscripts, hfunctions, -⟩ := h.counts
  have heq := h.pointerAt?_eq.symm.trans hpointer
  cases slot with
  | function i =>
    have hlt := (List.getElem?_eq_some_iff.1 heq).1
    obtain ⟨name, hname⟩ := indexOf?_of_lt (hfunctions ▸ hlt)
    exact ⟨.function name, Option.map_eq_some_iff.2 ⟨i, hname, rfl⟩⟩
  | script i =>
    cases i with
    | succ i =>
      have hlt := (List.getElem?_eq_some_iff.1 heq).1
      obtain ⟨name, hname⟩ := indexOf?_of_lt (t := p.scripts) (i := i) (by omega)
      exact ⟨.script name, Program.slot?_script.2 hname⟩
    | zero =>
      obtain ⟨main, rest, hslots, hnone, -⟩ := scriptSlots_eq_ok h.scriptSlots
      cases hmain : p.main with
      | some c => exact ⟨.main, by rw [Program.slot?, hmain]; rfl⟩
      | none =>
        -- the slot of a `main` that is not there is empty
        have hempty : parts.slot? (.script 0) = some none := by
          rw [slot?, hslots, hnone hmain]
          rfl
        rw [h.pointerAt?_of_none hempty] at hpointer
        exact absurd (Option.some.inj hpointer).symm hne

end Of

end Parts

variable {v : Vocabulary} {p : Program} {depth : Nat} {bytes : List UInt8} {slot : Slot}

/-- The slot of a callable holds the callable with the code it has at this depth. -/
theorem slotHolds_of_image (h : image p depth v = .ok bytes) {owner : Owner} {c : Callable}
    (hc : p.callable? owner = some c) (hslot : p.slot? owner = some slot) :
    SlotHolds v bytes slot ((bodyAt? p depth c).map (c, ·)) := by
  obtain ⟨parts, hparts, rfl⟩ := image_eq_ok h
  obtain ⟨content, hcontent, hwritten⟩ := hparts.slot?_of_callable hc hslot
  rw [callableSlot] at hwritten
  cases hbody : bodyAt? p depth c with
  | none =>
    rw [hbody] at hwritten
    cases hwritten
    exact hparts.pointerAt?_of_none hcontent
  | some s =>
    rw [hbody] at hwritten
    obtain ⟨piece, hpiece, rfl⟩ := exceptMap_eq_ok hwritten
    obtain ⟨pointer, hpointer, hne, hstands⟩ := hparts.pointerAt?_of_some hcontent
    exact ⟨pointer, piece, hpointer, hne, hpiece, hstands⟩

/-- A slot that holds something is that of a callable. -/
theorem owner_of_pointerAt? (h : image p depth v = .ok bytes) {pointer : Nat}
    (hpointer : pointerAt? bytes slot = some pointer) (hne : pointer ≠ 0) :
    ∃ owner, p.slot? owner = some slot := by
  obtain ⟨parts, hparts, rfl⟩ := image_eq_ok h
  exact hparts.owner_of_pointerAt? hpointer hne

end Image

end CharacterScript
