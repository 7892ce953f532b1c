import CharacterScript.Proofs.Disk.Places
import Mathlib.Data.List.Nodup

/-!
# Changes to a tree

Putting something at a place changes what is there and nothing else (`FileTree.node?_set`). A tree
stays well-formed if the place is in a directory, under a name, and no directory is replaced by a
file (`FileTree.WellFormed.set`). A file that is moved is at its new place and no longer at its old
one (`FileTree.WellFormed.node?_move`), and nothing else changes.

## Well-formed or not

What is found at a place after a change is a fact about lists of entries, and needs nothing of the
tree. That the new tree is well-formed does: every entry stands in a directory before and after,
so a change may not take a directory away from what is in it. Putting a file over a directory
would do that, and moving a directory would have to move all below it. Neither is ever needed
here, so only files are moved.
-/

namespace CharacterScript

def Node.isDirectory : Node → Bool
  | .file _ _ => false
  | .directory _ => true

namespace FileTree

variable {t : FileTree}

theorem wellFormed_empty : WellFormed {} where
  distinct := List.nodup_nil
  below _ h := absurd h List.not_mem_nil
  named _ h := absurd h List.not_mem_nil
  parent _ h := absurd h List.not_mem_nil
  here := rfl

theorem lookup_filter_ne {entries : List (Spot × Node)} {spot s : Spot} (h : s ≠ spot) :
    (entries.filter (·.1 != spot)).lookup s = entries.lookup s := by
  induction entries with
  | nil => rfl
  | cons entry entries ih =>
    by_cases hentry : entry.1 = spot
    · have hs : (s == entry.1) = false := beq_eq_false_iff_ne.2 (hentry ▸ h)
      rw [List.filter_cons_of_neg (by simpa using hentry), ih, List.lookup_cons, hs]
    · rw [List.filter_cons_of_pos (by simpa using hentry), List.lookup_cons, List.lookup_cons, ih]

theorem node?_set (t : FileTree) {spot : Spot} (hne : spot ≠ []) (node : Node) (s : Spot) :
    (t.set spot node).node? s = if s = spot then some node else t.node? s := by
  by_cases hempty : s = []
  · rw [hempty, if_neg hne.symm]
    rfl
  have hisEmpty : ¬s.isEmpty = true := fun he ↦ hempty (List.isEmpty_iff.1 he)
  rw [node?, if_neg hisEmpty, node?, if_neg hisEmpty, set, List.lookup_cons]
  by_cases hspot : s = spot
  · rw [if_pos hspot, hspot, beq_self_eq_true]
  · rw [if_neg hspot, beq_eq_false_iff_ne.2 hspot]
    exact lookup_filter_ne hspot

theorem isDirectoryAt_set (t : FileTree) {spot : Spot} (hne : spot ≠ []) (node : Node) (s : Spot) :
    (t.set spot node).isDirectoryAt s = if s = spot then node.isDirectory
      else t.isDirectoryAt s := by
  rw [isDirectoryAt, node?_set t hne]
  by_cases hspot : s = spot
  · rw [if_pos hspot, if_pos hspot]
    cases node <;> rfl
  · rw [if_neg hspot, if_neg hspot]
    rfl

theorem WellFormed.set (ht : t.WellFormed) {above : Spot} (habove : t.isDirectoryAt above = true)
    {name : String} (hname : IsName name) {node : Node}
    (hkeep : t.isDirectoryAt (above ++ [name]) = true → node.isDirectory = true) :
    (t.set (above ++ [name]) node).WellFormed := by
  have hne : above ++ [name] ≠ [] := by simp
  -- what was a directory is one still
  have hdir : ∀ s, t.isDirectoryAt s = true →
      (t.set (above ++ [name]) node).isDirectoryAt s = true := by
    intro s hs
    rw [isDirectoryAt_set t hne]
    split
    next heq => exact hkeep (heq ▸ hs)
    · exact hs
  have hmem : ∀ entry ∈ (t.set (above ++ [name]) node).entries,
      entry = (above ++ [name], node) ∨ entry ∈ t.entries := by
    intro entry hentry
    obtain hentry | hentry := List.mem_cons.1 hentry
    · exact .inl hentry
    · exact .inr (List.mem_of_mem_filter hentry)
  constructor
  case distinct =>
    refine List.nodup_cons.2 ⟨fun hspot ↦ ?_, ht.distinct.sublist (List.filter_sublist.map _)⟩
    obtain ⟨entry, hentry, heq⟩ := List.mem_map.1 hspot
    have hother := (List.mem_filter.1 hentry).2
    rw [heq, bne_self_eq_false] at hother
    cases hother
  case below =>
    intro entry hentry
    obtain rfl | hentry := hmem entry hentry
    · exact hne
    · exact ht.below entry hentry
  case named =>
    intro entry hentry n hn
    obtain rfl | hentry := hmem entry hentry
    · obtain hn | hn := List.mem_append.1 hn
      · exact ht.isName (has_of_isDirectoryAt habove) hn
      · rw [List.mem_singleton.1 hn]
        exact hname
    · exact ht.named entry hentry n hn
  case parent =>
    intro entry hentry
    obtain rfl | hentry := hmem entry hentry
    · rw [List.dropLast_concat]
      exact hdir above habove
    · exact hdir _ (ht.parent entry hentry)
  case here => exact hdir _ ht.here

/-- A file can be put where there is no directory. -/
theorem WellFormed.put (ht : t.WellFormed) {above : Spot} (habove : t.isDirectoryAt above = true)
    {name : String} (hname : IsName name) (hfree : t.isDirectoryAt (above ++ [name]) = false)
    (data : ByteArray) : (t.put (above ++ [name]) data).WellFormed := by
  have hset : (t.set (above ++ [name]) (.file data t.clock)).WellFormed :=
    ht.set habove hname fun hdir ↦ absurd (hdir.symm.trans hfree) (by decide)
  exact ⟨hset.distinct, hset.below, hset.named, hset.parent, hset.here⟩

theorem WellFormed.putDir (ht : t.WellFormed) {above : Spot} (habove : t.isDirectoryAt above = true)
    {name : String} (hname : IsName name) : (t.putDir (above ++ [name])).WellFormed := by
  have hset : (t.set (above ++ [name]) (.directory t.clock)).WellFormed :=
    ht.set habove hname fun _ ↦ rfl
  exact ⟨hset.distinct, hset.below, hset.named, hset.parent, hset.here⟩

theorem node?_put (t : FileTree) {spot : Spot} (hne : spot ≠ []) (data : ByteArray) (s : Spot) :
    (t.put spot data).node? s = if s = spot then some (.file data t.clock) else t.node? s :=
  node?_set t hne _ s

theorem isDirectoryAt_put (t : FileTree) {spot : Spot} (hne : spot ≠ [])
    (data : ByteArray) (s : Spot) :
    (t.put spot data).isDirectoryAt s = if s = spot then false else t.isDirectoryAt s :=
  isDirectoryAt_set t hne _ s

theorem node?_putDir (t : FileTree) {spot : Spot} (hne : spot ≠ []) (s : Spot) :
    (t.putDir spot).node? s = if s = spot then some (.directory t.clock) else t.node? s :=
  node?_set t hne _ s

theorem isDirectoryAt_putDir (t : FileTree) {spot : Spot} (hne : spot ≠ []) (s : Spot) :
    (t.putDir spot).isDirectoryAt s = if s = spot then true else t.isDirectoryAt s :=
  isDirectoryAt_set t hne _ s

/-! ## Moving a file

A move gives new places to all entries below the old place. For a file that is the entry itself,
because nothing is below a file. -/

/-- An entry under its new place, if it is the one that is moved. -/
def relabel (source target : Spot) (entry : Spot × Node) : Spot × Node :=
  if entry.1 = source then (target, entry.2) else entry

theorem lookup_map_relabel {entries : List (Spot × Node)} {source target : Spot}
    (hfree : ∀ entry ∈ entries, entry.1 ≠ target) (s : Spot) :
    (entries.map (relabel source target)).lookup s
      = if s = target then entries.lookup source else if s = source then none
        else entries.lookup s := by
  induction entries with
  | nil => simp
  | cons entry entries ih =>
    obtain ⟨hentry, hrest⟩ := List.forall_mem_cons.1 hfree
    obtain ⟨spot, node⟩ := entry
    rw [List.map_cons, relabel]
    by_cases hsource : spot = source
    · rw [if_pos hsource, List.lookup_cons, ih hrest]
      by_cases hs : s = target
      · simp [hs, hsource]
      · rw [beq_eq_false_iff_ne.2 hs, if_neg hs, if_neg hs]
        by_cases hs' : s = source
        · simp [hs']
        · rw [if_neg hs', if_neg hs', List.lookup_cons, hsource, beq_eq_false_iff_ne.2 hs']
    · rw [if_neg hsource, List.lookup_cons, ih hrest]
      by_cases hs : s = target
      · have hspot : (s == spot) = false := beq_eq_false_iff_ne.2 (hs ▸ Ne.symm hentry)
        have hspot' : (source == spot) = false := beq_eq_false_iff_ne.2 (Ne.symm hsource)
        simp [hs, hspot', List.lookup_cons, hs ▸ hspot]
      · rw [if_neg hs, if_neg hs]
        by_cases hs' : s = source
        · have hspot : (s == spot) = false := beq_eq_false_iff_ne.2 (hs' ▸ Ne.symm hsource)
          rw [if_pos hs', if_pos hs', hspot]
        · rw [if_neg hs', if_neg hs', List.lookup_cons]

namespace WellFormed

variable {source : Spot} {data : ByteArray} {modified : Int}

/-- Nothing is below a file. -/
theorem eq_of_prefix_of_file (ht : t.WellFormed)
    (hfile : t.node? source = some (.file data modified))
    {entry : Spot × Node} (hentry : entry ∈ t.entries) (h : source <+: entry.1) :
    entry.1 = source := by
  obtain ⟨rest, hrest⟩ := h
  have hhas : t.Has (source ++ rest) := by
    rw [hrest]
    exact (has_iff_mem (ht.below entry hentry)).2 ⟨entry, hentry, rfl⟩
  by_cases hne : rest = []
  · rw [← hrest, hne, List.append_nil]
  · have hdir := ht.isDirectoryAt_above source hhas hne
    rw [isDirectoryAt, hfile] at hdir
    cases hdir

theorem entries_move (ht : t.WellFormed) (hfile : t.node? source = some (.file data modified))
    (target : Spot) : (t.move source target).entries
      = (t.entries.filter (·.1 != target)).map (relabel source target) := by
  refine List.map_congr_left fun entry hentry ↦ ?_
  have hmem := List.mem_of_mem_filter hentry
  obtain ⟨s, node⟩ := entry
  show (if source.isPrefixOf s = true then _ else _) = _
  by_cases hprefix : source <+: s
  · have heq : s = source := ht.eq_of_prefix_of_file hfile hmem hprefix
    rw [if_pos (List.isPrefixOf_iff_prefix.2 hprefix), relabel, if_pos heq, heq]
    simp
  · have hne : s ≠ source := fun heq ↦ hprefix (heq ▸ List.prefix_rfl)
    rw [if_neg (fun h ↦ hprefix (List.isPrefixOf_iff_prefix.1 h)), relabel, if_neg hne]

theorem node?_move (ht : t.WellFormed) (hfile : t.node? source = some (.file data modified))
    {target : Spot} (htarget : target ≠ []) (hne : source ≠ target) (s : Spot) :
    (t.move source target).node? s
      = if s = target then t.node? source else if s = source then none else t.node? s := by
  have hsource : source ≠ [] := by
    rintro rfl
    cases hfile
  by_cases hempty : s = []
  · rw [hempty, if_neg htarget.symm, if_neg hsource.symm]
    rfl
  have hfree : ∀ entry ∈ t.entries.filter (·.1 != target), entry.1 ≠ target :=
    fun entry hentry ↦ by simpa using (List.mem_filter.1 hentry).2
  have hnode {spot : Spot} (u : FileTree) (h : spot ≠ []) :
      u.node? spot = u.entries.lookup spot := by
    rw [node?, if_neg fun he ↦ h (List.isEmpty_iff.1 he)]
  rw [hnode _ hempty, hnode _ hsource, hnode _ hempty, ht.entries_move hfile,
    lookup_map_relabel hfree, lookup_filter_ne hne]
  by_cases hs : s = target
  · rw [if_pos hs, if_pos hs]
  · rw [if_neg hs, if_neg hs, lookup_filter_ne hs]

theorem isDirectoryAt_move (ht : t.WellFormed) (hfile : t.node? source = some (.file data modified))
    {target : Spot} (htarget : target ≠ []) (hne : source ≠ target)
    (hfree : t.isDirectoryAt target = false) (s : Spot) :
    (t.move source target).isDirectoryAt s = t.isDirectoryAt s := by
  have hsource : t.isDirectoryAt source = false := by rw [isDirectoryAt, hfile]
  rw [isDirectoryAt, ht.node?_move hfile htarget hne]
  by_cases hs : s = target
  · rw [if_pos hs, hs, hfree]
    exact hsource
  · rw [if_neg hs]
    by_cases hs' : s = source
    · rw [if_pos hs', hs', hsource]
    · rw [if_neg hs']
      rfl

/-- No two entries get the same place: that of the target was given up. -/
private theorem nodup_move (ht : t.WellFormed) (hfile : t.node? source = some (.file data modified))
    (target : Spot) : ((t.move source target).entries.map (·.1)).Nodup := by
  have hkeys : (t.move source target).entries.map (·.1)
      = ((t.entries.filter (·.1 != target)).map (·.1)).map
        fun s ↦ if s = source then target else s := by
    rw [ht.entries_move hfile, List.map_map, List.map_map]
    refine List.map_congr_left fun entry _ ↦ ?_
    rw [Function.comp_apply, Function.comp_apply, relabel]
    split <;> rfl
  rw [hkeys]
  refine List.Nodup.map_on (fun s hs s' hs' heq ↦ ?_)
    (ht.distinct.sublist (List.filter_sublist.map _))
  have hother : ∀ s ∈ (t.entries.filter (·.1 != target)).map (·.1), s ≠ target := by
    intro s hs
    obtain ⟨entry, hentry, rfl⟩ := List.mem_map.1 hs
    simpa using (List.mem_filter.1 hentry).2
  split_ifs at heq with h h'
  · rw [h, h']
  · exact absurd heq.symm (hother s' hs')
  · exact absurd heq (hother s hs)
  · exact heq

/-- A file can be moved to where there is no directory. -/
theorem move (ht : t.WellFormed) (hfile : t.node? source = some (.file data modified))
    {above : Spot} (habove : t.isDirectoryAt above = true) {name : String} (hname : IsName name)
    (hne : source ≠ above ++ [name]) (hfree : t.isDirectoryAt (above ++ [name]) = false) :
    (t.move source (above ++ [name])).WellFormed := by
  have htarget : above ++ [name] ≠ [] := by simp
  have hdir := ht.isDirectoryAt_move hfile htarget hne hfree
  have hmem : ∀ entry ∈ (t.move source (above ++ [name])).entries,
      entry.1 = above ++ [name] ∨ entry ∈ t.entries := by
    intro entry hentry
    rw [ht.entries_move hfile] at hentry
    obtain ⟨before, hbefore, rfl⟩ := List.mem_map.1 hentry
    rw [relabel]
    split
    · exact .inl rfl
    · exact .inr (List.mem_of_mem_filter hbefore)
  constructor
  case distinct => exact ht.nodup_move hfile _
  case below =>
    intro entry hentry
    obtain heq | hentry := hmem entry hentry
    · exact heq ▸ htarget
    · exact ht.below entry hentry
  case named =>
    intro entry hentry n hn
    obtain heq | hentry := hmem entry hentry
    · rw [heq] at hn
      obtain hn | hn := List.mem_append.1 hn
      · exact ht.isName (has_of_isDirectoryAt habove) hn
      · rw [List.mem_singleton.1 hn]
        exact hname
    · exact ht.named entry hentry n hn
  case parent =>
    intro entry hentry
    rw [hdir]
    obtain heq | hentry := hmem entry hentry
    · rw [heq, List.dropLast_concat]
      exact habove
    · exact ht.parent entry hentry
  case here =>
    rw [hdir]
    exact ht.here

end WellFormed

end FileTree

end CharacterScript
