import CharacterScript.Proofs.Image.Slots
import CharacterScript.Proofs.ScopeTree
import CharacterScript.Workspace

/-!
# Images that overlay each other

A chain of layers gives one image for each layer, made as soon as the layer has been compiled. An
image has only what its own layer declared; everything else in it is an empty slot. A runtime loads
the images one after the other, and what a later image has in a slot takes the place of what an
earlier one had there: `Image.overlay`.

## Nothing is lost

Nothing is lost that way. The last layer that declares a callable is the one whose depth the
callable has in the end; its image has the callable with its code, and the images after it have
nothing in that slot. The proof goes along the chain from its start and says, for the program at the
end, where each callable is: it was there before the chain and no image has it, or the image of its
depth has it (`Layered.placed`).

## Images of the past

An image shows the program as it was when its layer had been compiled, and the statement is about
the program at the end. What makes the two comparable is that a layer leaves the bodies of others
alone: a callable that is not declared again keeps its depth, its body and its slot.
-/

namespace CharacterScript

namespace Image

/-- What an image has in a slot: the offset of a body. -/
def held? (bytes : List UInt8) (slot : Slot) : Option (List UInt8 × Nat) :=
  ((pointerAt? bytes slot).filter (· != 0)).map (bytes, ·)

/-- What images laid over each other have in a slot: the last of them that has something there, and
the offset of its body. -/
def overlay : List (List UInt8) → Slot → Option (List UInt8 × Nat)
  | [], _ => none
  | bytes :: later, slot => (overlay later slot).or (held? bytes slot)

/-- Of the images of the layers after `depth`, that of the depth of the callable has it with this
code, and those after it have nothing in its slot. -/
def Placed (v : Vocabulary) (images : List (List UInt8)) (depth : Nat) (slot : Slot) (c : Callable)
    (s : Scope) : Prop :=
  ∃ k bytes, c.depth = depth + k + 1 ∧ images[k]? = some bytes ∧
    SlotHolds v bytes slot (some (c, s)) ∧
    ∀ j later, k < j → images[j]? = some later → SlotHolds v later slot none

variable {v : Vocabulary} {images : List (List UInt8)} {bytes : List UInt8} {depth : Nat}
  {slot : Slot} {c : Callable} {s : Scope}

theorem held?_eq_some_iff {found : List UInt8 × Nat} :
    held? bytes slot = some found ↔
      ∃ pointer, pointerAt? bytes slot = some pointer ∧ pointer ≠ 0 ∧ found = (bytes, pointer) := by
  rw [held?, Option.map_eq_some_iff]
  simp only [Option.filter_eq_some_iff, bne_iff_ne, ne_eq, and_assoc, eq_comm (a := found)]

theorem held?_of_slotHolds_none (h : SlotHolds v bytes slot none) : held? bytes slot = none := by
  have hpointer : pointerAt? bytes slot = some 0 := h
  rw [held?, hpointer]
  rfl

theorem overlay_eq_none (h : ∀ bytes ∈ images, held? bytes slot = none) :
    overlay images slot = none := by
  induction images with
  | nil => rfl
  | cons bytes later ih =>
    rw [List.forall_mem_cons] at h
    rw [overlay, ih h.2, h.1]
    rfl

/-- The last image with something in the slot decides. -/
private theorem overlay_eq_some {k : Nat} {found : List UInt8 × Nat} (hk : images[k]? = some bytes)
    (hfound : held? bytes slot = some found)
    (hlater : ∀ j later, k < j → images[j]? = some later → held? later slot = none) :
    overlay images slot = some found := by
  induction images generalizing k with
  | nil => simp at hk
  | cons first rest ih =>
    rw [overlay]
    cases k with
    | zero =>
      have hrest : overlay rest slot = none := by
        refine overlay_eq_none fun later hmem ↦ ?_
        obtain ⟨j, hj⟩ := List.mem_iff_getElem?.1 hmem
        exact hlater (j + 1) later (Nat.succ_pos j) hj
      cases hk
      rw [hrest, hfound]
      rfl
    | succ k =>
      have hrest := ih hk fun j later hj hmem ↦ hlater (j + 1) later (Nat.succ_lt_succ hj) hmem
      rw [hrest]
      rfl

/-- What is placed in its image is what the overlay finds. -/
theorem Placed.overlay (h : Placed v images depth slot c s) :
    ∃ bytes pointer piece, Image.overlay images slot = some (bytes, pointer) ∧
      callableBytes v c s = .ok piece ∧ StandsAt bytes pointer piece := by
  obtain ⟨k, bytes, -, hk, ⟨pointer, piece, hpointer, hne, hpiece, hstands⟩, hlater⟩ := h
  refine ⟨bytes, pointer, piece, overlay_eq_some hk ?_ fun j later hj hmem ↦ ?_, hpiece, hstands⟩
  · exact held?_eq_some_iff.2 ⟨pointer, hpointer, hne, rfl⟩
  · exact held?_of_slotHolds_none (hlater j later hj hmem)

/-- An image in front moves the others by one. -/
theorem Placed.cons (h : Placed v images (depth + 1) slot c s) :
    Placed v (bytes :: images) depth slot c s := by
  obtain ⟨k, found, hdepth, hk, hholds, hlater⟩ := h
  refine ⟨k + 1, found, by omega, hk, hholds, fun j later hj hmem ↦ ?_⟩
  obtain ⟨i, rfl⟩ : ∃ i, j = i + 1 := ⟨j - 1, by omega⟩
  exact hlater i later (Nat.lt_of_succ_lt_succ hj) hmem

end Image

/-! ## Chains

A chain is a list of layers that were all accepted. Along it, each layer is put in front of what
is known of the layers behind it. -/

/-- Layers are compiled one after the other, each with an image of what it has given. -/
inductive Layered : Session → List (List UInt8) → Session → Prop
  | nil {s} : Layered s [] s
  | cons {s s' t source depth bytes images} (h : s.compileLayer source = (.ok depth, s'))
    (himage : image s'.program depth s'.vocabulary = .ok bytes) (hrest : Layered s' images t) :
    Layered s (bytes :: images) t

theorem layered_of_compileDirs {dirs : List ScriptDir} {s : Session}
    {before images : List (List UInt8)}
    {p : Program} (h : Workspace.compileDirs before s dirs = .ok (p, images)) :
    ∃ t made, t.program = p ∧ images = before.reverse ++ made ∧ Layered s made t := by
  induction dirs generalizing s before with
  | nil =>
    cases h
    exact ⟨s, [], rfl, by simp, .nil⟩
  | cons dir dirs ih =>
    rw [Workspace.compileDirs] at h
    split at h
    next => contradiction
    next depth s' hlayer =>
      split at h
      next => contradiction
      next bytes himage =>
        obtain ⟨t, made, hp, rfl, hrest⟩ := ih h
        exact ⟨t, bytes :: made, hp, by simp, .cons hlayer himage hrest⟩

namespace Layered

open Image

variable {s t : Session} {images : List (List UInt8)}

theorem leads (h : Layered s images t) : s.Leads t := by
  induction h with
  | nil => exact .refl
  | @cons s s' _ source _ _ _ h _ _ ih =>
    have hs' : s' = (s.compileLayer source).2 := by rw [h]
    exact .head ⟨source, hs'⟩ ih

/-- In the program at the end of a chain, a callable is one that was there before the chain, and
then no image has it, or the image of its depth has it and no later one. -/
theorem placed (h : Layered s images t) (hs : s.Reachable) {owner : Owner} {c : Callable}
    {slot : Slot} (hc : t.program.callable? owner = some c)
    (hslot : t.program.slot? owner = some slot) :
    (s.program.callable? owner = some c ∧
        ∀ bytes ∈ images, SlotHolds s.vocabulary bytes slot none) ∨
      ∃ id a, c.body = some id ∧ t.program.scope? id = some a ∧
        Placed s.vocabulary images s.program.depth slot c a := by
  induction h with
  | nil => exact .inl ⟨hc, nofun⟩
  | @cons s s' t source depth bytes images h himage hrest ih =>
    obtain ⟨hdepth, hvocabulary, -⟩ := Session.compileLayer_ok h
    have hs' := hs.next h
    have hfollows := Session.follows_compileLayer hs.sound source
    have hdeeper := (Session.keeps_compileLayer hs.sound source).2
    rw [h] at hfollows hdeeper
    rw [← hvocabulary]
    rcases ih hs' hc hslot with ⟨hc', hnone⟩ | ⟨id, a, hbody, ha, hplaced⟩
    · -- the callable has been what it is since this layer, and its slot is the one it has now
      obtain ⟨slot', hslot'⟩ := Program.slot?_isSome_iff.2 ⟨c, hc'⟩
      cases hslot.symm.trans (hrest.leads.slot? hs' hslot')
      have hholds := slotHolds_of_image himage hc' hslot'
      by_cases hnew : c.depth = depth
      · obtain ⟨id, a, hbody, ha, -⟩ := (accepted_scopeTree hs h).1.root hc' hnew
        refine .inr ⟨id, a, hbody, hrest.leads.scope? hs' ha, 0, bytes, hnew.trans hdepth, rfl, ?_,
          fun j later hj hmem ↦ ?_⟩
        · rwa [bodyAt?, if_pos hnew, hbody, Option.bind_some, ha] at hholds
        · obtain ⟨i, rfl⟩ : ∃ i, j = i + 1 := ⟨j - 1, by omega⟩
          exact hnone later (List.mem_of_getElem? hmem)
      · refine .inl ⟨hfollows.callable_of_ne hc' fun heq ↦ hnew (heq.trans hdepth.symm),
          List.forall_mem_cons.2 ⟨?_, hnone⟩⟩
        rwa [bodyAt?, if_neg hnew] at hholds
    · rw [hdeeper] at hplaced
      exact .inr ⟨id, a, hbody, ha, hplaced.cons⟩

/-- A slot in which some image has something is that of a callable. -/
theorem owner_of_held? (h : Layered s images t) (hs : s.Reachable) {bytes : List UInt8}
    {slot : Slot}
    (hmem : bytes ∈ images) (hheld : held? bytes slot ≠ none) :
    ∃ owner, t.program.slot? owner = some slot := by
  induction h with
  | nil => contradiction
  | @cons s s' t source depth first images h himage hrest ih =>
    have hs' := hs.next h
    rcases List.mem_cons.1 hmem with rfl | hmem
    · obtain ⟨found, hfound⟩ := Option.ne_none_iff_exists'.1 hheld
      obtain ⟨pointer, hpointer, hne, -⟩ := held?_eq_some_iff.1 hfound
      obtain ⟨owner, howner⟩ := owner_of_pointerAt? himage hpointer hne
      exact ⟨owner, hrest.leads.slot? hs' howner⟩
    · exact ih hs' hmem

theorem depth_eq (h : Layered s images t) (hs : s.Reachable) :
    t.program.depth = s.program.depth + images.length := by
  induction h with
  | nil => rfl
  | @cons s s' t source depth first images h himage hrest ih =>
    have hs' := hs.next h
    have hdeeper := (Session.keeps_compileLayer hs.sound source).2
    rw [h] at hdeeper
    rw [ih hs', hdeeper, List.length_cons]
    omega

end Layered

open Image in
/-- The images of a chain overlay each other without loss. Each callable of the program at the end
has its code in the image of its depth, and no later image has anything in its slot; so the images
laid over each other have exactly the callables of the program. What they have in the slot of one
are the bytes that are written for it, and they read as the callable with the code it has in the
end. -/
theorem images_overlay {v : Vocabulary} {entryFile : Option String} {dirs : List ScriptDir}
    {p : Program} {images : List (List UInt8)}
    (h : Workspace.compileDirs [] (.new v entryFile) dirs = .ok (p, images)) :
    p.depth = images.length ∧
    (∀ {owner c}, p.callable? owner = some c → ∃ slot id s, p.slot? owner = some slot ∧
      c.body = some id ∧ p.scope? id = some s ∧ Placed v images 0 slot c s ∧
      ∃ bytes pointer piece, overlay images slot = some (bytes, pointer) ∧
        callableBytes v c s = .ok piece ∧ StandsAt bytes pointer piece ∧
        CallableAt v bytes pointer c s (pointer + piece.length)) ∧
    ∀ {slot}, (∀ owner, p.slot? owner ≠ some slot) → overlay images slot = none := by
  obtain ⟨t, made, rfl, rfl, hlayered⟩ := layered_of_compileDirs h
  have hs : (Session.new v entryFile).Reachable := .new v entryFile
  refine ⟨?_, fun {owner c} hc ↦ ?_, fun {slot} hslot ↦ ?_⟩
  · rw [hlayered.depth_eq hs]
    exact Nat.zero_add _
  · obtain ⟨slot, hslot⟩ := Program.slot?_isSome_iff.2 ⟨c, hc⟩
    rcases hlayered.placed hs hc hslot with ⟨hnone, -⟩ | ⟨id, s, hbody, hscope, hplaced⟩
    -- the chain starts with nothing
    · exact nomatch (Program.callable?_empty owner).symm.trans hnone
    · obtain ⟨bytes, pointer, piece, hoverlay, hpiece, hstands⟩ := hplaced.overlay
      have hword := ((hlayered.leads.reachable hs).sound.callable hc).isWord
      exact ⟨slot, id, s, hslot, hbody, hscope, hplaced, bytes, pointer, piece, hoverlay, hpiece,
        hstands, callableAt_of_standsAt hword hpiece hstands⟩
  · refine overlay_eq_none fun bytes hmem ↦ ?_
    by_contra hheld
    obtain ⟨owner, howner⟩ := hlayered.owner_of_held? hs hmem hheld
    exact hslot owner howner

/-- The sample with a layer over it that declares the function anew. -/
def Sample.chain : List ScriptDir :=
  [⟨⟨"base"⟩, [], Sample.source, none⟩,
    ⟨⟨"derived"⟩, [], "fn add(&r, n) \x7b r = n + n \x7d", some "../base"⟩]

open Image in
/-- In the end the function is in the second image and `main` in the first. -/
theorem images_overlay_sample :
    ∃ p images add main, Workspace.compileDirs [] Sample.start Sample.chain = .ok (p, images) ∧
      p.callable? (.function "add") = some add ∧ add.depth = 2 ∧
      p.callable? .main = some main ∧ main.depth = 1 ∧
      (∃ slot s, Placed Sample.vocabulary images 0 slot add s) ∧
      ∃ slot s, Placed Sample.vocabulary images 0 slot main s := by
  have hdepths : ((Workspace.compileDirs [] Sample.start Sample.chain).toOption.map fun made ↦
      ((made.1.callable? (.function "add")).map (·.depth), made.1.main.map (·.depth)))
      = some (some 2, some 1) := by decide +kernel
  cases h : Workspace.compileDirs [] Sample.start Sample.chain with
  | error e =>
    rw [h] at hdepths
    contradiction
  | ok made =>
    obtain ⟨p, images⟩ := made
    rw [h] at hdepths
    obtain ⟨hadd, hmain⟩ := Prod.mk.inj (Option.some.inj hdepths)
    obtain ⟨add, hadd, hadd'⟩ := Option.map_eq_some_iff.1 hadd
    obtain ⟨main, hmain, hmain'⟩ : ∃ main, p.callable? .main = some main ∧ main.depth = 1 :=
      Option.map_eq_some_iff.1 hmain
    obtain ⟨-, hplaced, -⟩ := images_overlay h
    obtain ⟨slot, id, s, -, -, -, hs, -⟩ := hplaced hadd
    obtain ⟨slot', id', s', -, -, -, hs', -⟩ := hplaced hmain
    exact ⟨p, images, add, main, rfl, hadd, hadd', hmain, hmain', ⟨slot, s, hs⟩, slot', s', hs'⟩

end CharacterScript
