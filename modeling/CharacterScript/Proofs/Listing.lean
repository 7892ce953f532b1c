import CharacterScript.CommandLine.Report
import CharacterScript.Proofs.Computation
import CharacterScript.Proofs.Relocation.Captured
import CharacterScript.Proofs.TableLaws

/-!
# Reading a listed vocabulary back

The listing of a vocabulary has all commands and then all globals, each with its id written out. It
reads back as the very same vocabulary (`Vocabulary.parse_listing`), wherever the vocabulary came
from: a text may have mixed commands and globals, left ids to the counter, or given a name twice.

## What carries the proof

Two things carry this. A line with its id written out has the same effect wherever the counter
stands (`readLines_line`). And a table that was filled by putting in entries is what its entries,
put in once more from the front, make of an empty table (`Table.Filled`), even if some were put in
over others: a name put in again changes nothing about the places.

## Blanks in names

A name in a vocabulary is what stands between blanks and marks of the line, so it has none of
these in it. A vocabulary that was read has only such names, and this is why its listing can be
cut into the same words. A vocabulary put together in another way need not have a listing that can
be read.
-/

namespace CharacterScript

/-! ## Words and lines

A line is put together from words with blanks in between, and cut into the same words. The lines
of a listing have no line feeds in them, so they are the lines of the text. -/

theorem wordsFrom_nil (word : List Char) (done : List (List Char)) : wordsFrom word done []
    = if word.isEmpty then done.reverse else (word.reverse :: done).reverse :=
  rfl

theorem wordsFrom_cons (word : List Char) (done : List (List Char)) (c : Char) (cs : List Char) :
    wordsFrom word done (c :: cs) = if isSpace c then
        if word.isEmpty then wordsFrom [] done cs else wordsFrom [] (word.reverse :: done) cs
      else wordsFrom (c :: word) done cs :=
  rfl

theorem wordsFrom_done (word : List Char) (done : List (List Char)) (cs : List Char) :
    wordsFrom word done cs = done.reverse ++ wordsFrom word [] cs := by
  induction cs generalizing word done with
  | nil =>
    cases word with
    | nil => simp [wordsFrom_nil]
    | cons c word => simp [wordsFrom_nil]
  | cons c cs ih =>
    rw [wordsFrom_cons, wordsFrom_cons]
    split
    · split
      · exact ih [] done
      · rw [ih [] (_ :: done), ih [] [_], List.reverse_cons, List.append_assoc]
        rfl
    · exact ih _ _

theorem wordsFrom_append {front : List Char} (h : ∀ c ∈ front, isSpace c = false)
    (word rest : List Char) :
    wordsFrom word [] (front ++ rest) = wordsFrom (front.reverse ++ word) [] rest := by
  induction front generalizing word with
  | nil => rfl
  | cons c front ih =>
    rw [List.cons_append, wordsFrom_cons, h c List.mem_cons_self, if_neg Bool.false_ne_true,
      ih (fun x hx ↦ h x (List.mem_cons_of_mem _ hx)), List.reverse_cons, List.append_assoc]
    rfl

theorem words_cons_space {c : Char} (h : isSpace c = true) (cs : List Char) :
    words (c :: cs) = words cs := by
  rw [words, wordsFrom_cons, if_pos h]
  rfl

/-- A word is read up to white space or the end. -/
theorem words_append {w : List Char} (hne : w ≠ []) (h : ∀ c ∈ w, isSpace c = false)
    {rest : List Char} (hrest : ∀ c ∈ rest.head?, isSpace c = true) :
    words (w ++ rest) = w :: words rest := by
  have hempty : (w.reverse ++ []).isEmpty = false := by simpa using hne
  rw [words, wordsFrom_append h]
  cases rest with
  | nil =>
    rw [wordsFrom_nil, hempty]
    simp [words, wordsFrom_nil]
  | cons c rest =>
    rw [wordsFrom_cons, if_pos (hrest c rfl), hempty, if_neg Bool.false_ne_true, wordsFrom_done,
      words_cons_space (hrest c rfl)]
    simp [words]

/-- A word of a text is a run of characters that are not white space. -/
def IsSpaceless (w : List Char) : Prop :=
  w ≠ [] ∧ ∀ c ∈ w, isSpace c = false

theorem isSpaceless_of_mem_words {cs w : List Char} (h : w ∈ words cs) : IsSpaceless w := by
  have key : ∀ (word : List Char), (∀ c ∈ word, isSpace c = false) →
      ∀ w ∈ wordsFrom word [] cs, IsSpaceless w := by
    clear h
    induction cs with
    | nil =>
      intro word hword w hw
      cases word with
      | nil => simp [wordsFrom_nil] at hw
      | cons c word =>
        obtain rfl : w = (c :: word).reverse := by simpa [wordsFrom_nil] using hw
        exact ⟨by simp, fun x hx ↦ hword x (List.mem_reverse.1 hx)⟩
    | cons c cs ih =>
      intro word hword w hw
      rw [wordsFrom_cons] at hw
      split at hw
      · split at hw
        · exact ih [] nofun w hw
        next hne =>
          rw [wordsFrom_done, List.reverse_singleton, List.singleton_append] at hw
          obtain rfl | hw := List.mem_cons.1 hw
          · exact ⟨by simpa using hne, fun x hx ↦ hword x (List.mem_reverse.1 hx)⟩
          · exact ih [] nofun w hw
      next hc =>
        refine ih _ (fun x hx ↦ ?_) w hw
        obtain rfl | hx := List.mem_cons.1 hx
        · exact Bool.eq_false_iff.2 hc
        · exact hword x hx
  exact key [] nofun w h

/-- Words with a blank between them are read back. -/
theorem words_intercalate {ws : List (List Char)} (h : ∀ w ∈ ws, IsSpaceless w) :
    words ([' '].intercalate ws) = ws := by
  induction ws with
  | nil => rfl
  | cons w ws ih =>
    obtain ⟨hne, hw⟩ := h w List.mem_cons_self
    cases ws with
    | nil =>
      have hlast := @words_append w hne hw [] nofun
      rw [List.append_nil] at hlast
      rw [List.intercalate_singleton, hlast]
      rfl
    | cons w' ws =>
      rw [List.intercalate_cons_of_ne_nil (by simp), List.append_assoc,
        words_append hne hw (by simp [isSpace, spaceRanges]), List.singleton_append,
        words_cons_space (by decide), ih fun x hx ↦ h x (List.mem_cons_of_mem _ hx)]

/-- The only white space in it is blanks. -/
def OnlyBlanks (cs : List Char) : Prop :=
  ∀ c ∈ cs, isSpace c = true → c = ' '

instance (cs : List Char) : Decidable (OnlyBlanks cs) :=
  List.decidableBAll (fun c ↦ isSpace c = true → c = ' ') cs

theorem onlyBlanks_append {cs ds : List Char} :
    OnlyBlanks (cs ++ ds) ↔ OnlyBlanks cs ∧ OnlyBlanks ds := by
  simp only [OnlyBlanks, List.mem_append, or_imp, forall_and]

theorem IsSpaceless.onlyBlanks {w : List Char} (h : IsSpaceless w) : OnlyBlanks w :=
  fun c hc hspace ↦ nomatch (h.2 c hc).symm.trans hspace

theorem mem_intercalate {α : Type} {sep : List α} {xss : List (List α)} {x : α}
    (h : x ∈ sep.intercalate xss) : x ∈ sep ∨ ∃ xs ∈ xss, x ∈ xs := by
  induction xss with
  | nil => simp at h
  | cons xs xss ih =>
    cases xss with
    | nil =>
      rw [List.intercalate_singleton] at h
      exact .inr ⟨xs, List.mem_singleton_self xs, h⟩
    | cons ys xss =>
      rw [List.intercalate_cons_of_ne_nil (by simp), List.mem_append, List.mem_append] at h
      obtain (h | h) | h := h
      · exact .inr ⟨xs, List.mem_cons_self, h⟩
      · exact .inl h
      · exact (ih h).imp id fun ⟨zs, hzs, hx⟩ ↦ ⟨zs, List.mem_cons_of_mem _ hzs, hx⟩

theorem onlyBlanks_intercalate {ws : List (List Char)} (h : ∀ w ∈ ws, IsSpaceless w) :
    OnlyBlanks ([' '].intercalate ws) := by
  intro c hc hspace
  obtain hc | ⟨w, hw, hc⟩ := mem_intercalate hc
  · exact List.mem_singleton.1 hc
  · exact (h w hw).onlyBlanks c hc hspace

/-- Printed lines are read back, if there is no white space in them but blanks. -/
theorem lines_block {ls : List String} (h : ∀ l ∈ ls, OnlyBlanks l.toList) :
    lines (CommandLine.Report.block ls).toList = ls.map String.toList := by
  have hblock : (CommandLine.Report.block ls).toList = ls.flatMap fun l ↦ l.toList ++ ['\n'] := by
    rw [CommandLine.Report.block, String.toList_join, List.flatMap_map]
    exact List.flatMap_congr fun l _ ↦ String.toList_append
  rw [hblock]
  clear hblock
  induction ls with
  | nil => rfl
  | cons l ls ih =>
    have hblanks := h l List.mem_cons_self
    have hfeed : '\n' ∉ l.toList := fun hmem ↦ nomatch hblanks _ hmem (by decide)
    have hreturn : '\r' ∉ l.toList := fun hmem ↦ nomatch hblanks _ hmem (by decide)
    obtain ⟨body, ending, hline, hending, hlines⟩ :=
      lines_append hfeed (ls.flatMap fun l ↦ l.toList ++ ['\n'])
    obtain rfl : ending = [] := List.eq_nil_iff_forall_not_mem.2 fun c hc ↦
      hreturn (hline ▸ List.mem_append_right _ (hending c hc ▸ hc))
    rw [List.append_nil] at hline
    rw [List.flatMap_cons, List.append_assoc, List.singleton_append, hlines, ← hline,
      ih fun x hx ↦ h x (List.mem_cons_of_mem _ hx), List.map_cons]

/-! ## Ids -/

theorem hexValue?_digit {d : Nat} (h : d < 16) : hexValue? d.digitChar.toUpper = some d := by
  have hall : ∀ d < 16, hexValue? (Nat.digitChar d).toUpper = some d := by decide
  exact hall d h

theorem hexNumber_concat (digits : List Char) (c : Char) :
    hexNumber (digits ++ [c]) = 16 * hexNumber digits + (hexValue? c).getD 0 := by
  rw [hexNumber, List.foldl_append]
  rfl

/-- The digits of a number, in capitals, are hexadecimal digits and denote it. -/
theorem hexNumber_toDigits (n : Nat) :
    hexNumber ((Nat.toDigits 16 n).map Char.toUpper) = n ∧
      ∀ c ∈ (Nat.toDigits 16 n).map Char.toUpper, isHexDigit c = true := by
  induction n using Nat.strongRecOn with
  | ind n ih =>
    have hdigit : ∀ {d}, d < 16 → isHexDigit d.digitChar.toUpper = true := fun hd ↦ by
      rw [isHexDigit, hexValue?_digit hd]
      rfl
    by_cases hn : n < 16
    · rw [Nat.toDigits_of_lt_base hn]
      refine ⟨?_, by simpa using hdigit hn⟩
      have := hexNumber_concat [] n.digitChar.toUpper
      rw [hexValue?_digit hn] at this
      simpa [hexNumber] using this
    · obtain ⟨hnumber, hdigits⟩ := ih (n / 16) (by omega)
      have hmod : n % 16 < 16 := Nat.mod_lt _ (by decide)
      rw [Nat.toDigits_of_base_le (by decide) (Nat.le_of_not_lt hn), List.map_append,
        List.map_singleton, hexNumber_concat, hnumber, hexValue?_digit hmod, Option.getD_some]
      refine ⟨by omega, fun c hc ↦ ?_⟩
      obtain hc | hc := List.mem_append.1 hc
      · exact hdigits c hc
      · exact List.mem_singleton.1 hc ▸ hdigit hmod

namespace Vocabulary

theorem hexId?_of_digits {digits : List Char} (hne : digits ≠ [])
    (h : ∀ c ∈ digits, isHexDigit c = true) (hlt : hexNumber digits < Nat.pow 2 64) :
    hexId? digits = some (hexNumber digits) := by
  have hplus : ∀ rest, digits ≠ '+' :: rest := by
    rintro rest rfl
    exact absurd (h '+' List.mem_cons_self) (by decide)
  have hall : (!digits.isEmpty && digits.all isHexDigit && decide (hexNumber digits < Nat.pow 2 64))
      = true := by
    simpa [hne, hlt] using h
  unfold hexId?
  split
  next rest => exact absurd rfl (hplus rest)
  next => exact if_pos hall

/-- A written id is a word that denotes it. -/
theorem exists_toList_idText (id : UInt16) : ∃ digits, (idText id).toList = '0' :: 'x' :: digits ∧
    hexId? digits = some id.toNat ∧ ∀ c ∈ (idText id).toList, isSpace c = false := by
  obtain ⟨hnumber, hdigits⟩ := hexNumber_toDigits id.toNat
  set digits := (Nat.toDigits 16 id.toNat).map Char.toUpper with hdef
  have hne : digits ≠ [] := by
    rw [hdef, Ne, List.map_eq_nil_iff]
    exact List.ne_nil_of_length_pos Nat.length_toDigits_pos
  have hlt : id.toNat < Nat.pow 2 64 := id.toNat_lt.trans (by decide)
  have hzero : hexNumber ('0' :: digits) = hexNumber digits := rfl
  have hid : (idText id).toList
      = '0' :: 'x' :: (if digits.length < 2 then '0' :: digits else digits) := by
    show (String.ofList ['0', 'x'] ++ String.ofList _).toList = _
    rw [String.toList_append, String.toList_ofList, String.toList_ofList]
    rfl
  -- a zero in front changes neither the value nor that these are digits
  have hpadded : ∀ ds, ds = digits ∨ ds = '0' :: digits →
      hexId? ds = some id.toNat ∧ ∀ c ∈ '0' :: 'x' :: ds, isSpace c = false := by
    intro ds hds
    have hhex : ∀ c ∈ ds, isHexDigit c = true := by
      obtain rfl | rfl := hds
      · exact hdigits
      · exact List.forall_mem_cons.2 ⟨by decide, hdigits⟩
    have hvalue : hexNumber ds = id.toNat := by
      obtain rfl | rfl := hds
      · exact hnumber
      · exact hzero.trans hnumber
    have hds' : ds ≠ [] := by
      obtain rfl | rfl := hds
      · exact hne
      · exact List.cons_ne_nil _ _
    refine ⟨hvalue ▸ hexId?_of_digits hds' hhex (hvalue ▸ hlt), ?_⟩
    exact List.forall_mem_cons.2 ⟨by decide, List.forall_mem_cons.2 ⟨by decide, fun c hc ↦
      isSpace_eq_false (isWordChar_of_isHexDigit (hhex c hc))⟩⟩
  rw [hid]
  split
  · exact ⟨_, rfl, hpadded _ (.inr rfl)⟩
  · exact ⟨_, rfl, hpadded _ (.inl rfl)⟩

end Vocabulary

/-! ## Tables filled by putting in

A table keeps a search tree, and two tables with the same entries could have different ones. So it
is not enough to have the same entries in the same order: the trees have to come about in the same
way. -/

namespace Table

variable {α : Type}

theorem index_insert_of_some {t : Table α} {name : String} {k : Nat} (a : α)
    (h : t.indexOf? name = some k) : (t.insert name a).index = t.index := by
  rw [insert]
  split
  next => rfl
  next hnone => cases hnone.symm.trans h

theorem index_insert_of_none {t : Table α} {name : String} (a : α) (h : t.indexOf? name = none) :
    (t.insert name a).index = t.index.insert name t.size := by
  rw [insert]
  split
  next j hj => cases hj.symm.trans h
  next => rfl

/-- Two tables have the same places. -/
def SamePlaces (t u : Table α) : Prop :=
  t.index = u.index ∧ t.size = u.size

/-- Where an entry is put does not depend on the values. -/
theorem SamePlaces.insert {t u : Table α} (h : t.SamePlaces u) (name : String) (a b : α) :
    (t.insert name a).SamePlaces (u.insert name b) := by
  have hindex : t.indexOf? name = u.indexOf? name := by rw [indexOf?, indexOf?, h.1]
  cases ht : t.indexOf? name with
  | none =>
    have hu := hindex.symm.trans ht
    refine ⟨?_, ?_⟩
    · rw [index_insert_of_none a ht, index_insert_of_none b hu, h.1, h.2]
    · rw [size, size, entries_insert_of_none a ht, entries_insert_of_none b hu, Array.size_push,
        Array.size_push]
      exact congrArg (· + 1) h.2
  | some k =>
    have hu := hindex.symm.trans ht
    refine ⟨?_, ?_⟩
    · rw [index_insert_of_some a ht, index_insert_of_some b hu, h.1]
    · rw [size, size, entries_insert_of_some a ht, entries_insert_of_some b hu,
        Array.size_setIfInBounds, Array.size_setIfInBounds]
      exact h.2

theorem samePlaces_ofList {es fs : List (String × α)} (h : es.map (·.1) = fs.map (·.1)) :
    (ofList es).SamePlaces (ofList fs) := by
  have key : ∀ {t u : Table α}, t.SamePlaces u →
      (es.foldl (fun t e ↦ t.insert e.1 e.2) t).SamePlaces
        (fs.foldl (fun t e ↦ t.insert e.1 e.2) u) := by
    induction es generalizing fs with
    | nil =>
      intro t u htu
      obtain rfl : fs = [] := List.map_eq_nil_iff.1 h.symm
      exact htu
    | cons e es ih =>
      intro t u htu
      obtain ⟨f, fs, rfl⟩ : ∃ f fs', fs = f :: fs' :=
        List.exists_cons_of_ne_nil (by rintro rfl; simp at h)
      rw [List.map_cons, List.map_cons, List.cons.injEq] at h
      obtain ⟨hname, hnames⟩ := h
      rw [List.foldl_cons, List.foldl_cons, ← hname]
      exact ih hnames (htu.insert e.1 e.2 f.2)
  exact key ⟨rfl, rfl⟩

theorem eq_of_entries {t u : Table α} (hentries : t.toList = u.toList)
    (hindex : t.index = u.index) :
    t = u := by
  cases t
  cases u
  obtain rfl := Array.toList_inj.1 hentries
  obtain rfl : _ = _ := hindex
  rfl

/-- The table is what its entries make of an empty one when they are put in from the front. -/
def Filled (t : Table α) : Prop :=
  ofList t.toList = t

theorem filled_empty : (empty : Table α).Filled :=
  rfl

theorem Filled.insert {t : Table α} (h : t.Filled) (name : String) (a : α) :
    (t.insert name a).Filled := by
  have hlist : (ofList (t.insert name a).toList).toList = (t.insert name a).toList :=
    toList_ofList (t.insert name a).nodup_names
  refine eq_of_entries hlist ?_
  cases hindex : t.indexOf? name with
  | none =>
    have hlast : ofList (t.insert name a).toList = (ofList t.toList).insert name a := by
      rw [toList_insert_of_none a hindex, ofList, List.foldl_append]
      rfl
    rw [hlast, h]
  | some k =>
    have hnames : (t.insert name a).names = t.names := by
      rw [names_insert, contains, hindex]
      rfl
    rw [(samePlaces_ofList hnames).1, h, index_insert_of_some a hindex]

end Table

namespace Vocabulary

/-! ## Lines of a listing -/

/-- What can stand in front of the colon of an entry. -/
def IsEntryName (name : String) : Prop :=
  name.toList ≠ [] ∧ ∀ c ∈ name.toList, isWordChar c = true

/-- A line of a listing. Behind the id comes nothing, or white space and the parameters. -/
def lineOf (kind : EntryKind) (name : String) (id : UInt16) (tail : List Char) : List Char :=
  kind.word.toList ++ ' ' :: (name.toList ++ ':' :: ' ' :: ((idText id).toList ++ tail))

theorem entryName?_append {name : String} (h : IsEntryName name) (rest : List Char) :
    entryName? (name.toList ++ ':' :: rest) = some (name, rest) := by
  obtain ⟨hne, hword⟩ := h
  have hspace : ∀ c ∈ name.toList, isSpace c = false := fun c hc ↦ isSpace_eq_false (hword c hc)
  have hbefore : (name.toList ++ ':' :: rest).takeWhile (· != ':') = name.toList := by
    rw [List.takeWhile_append_of_pos fun c hc ↦ ?_, List.takeWhile_cons_of_neg (by simp),
      List.append_nil]
    rw [bne_iff_ne]
    rintro rfl
    exact absurd (hword _ hc) (by decide)
  have htrim : trim name.toList = name.toList := by
    have hdrop : ∀ {cs : List Char}, (∀ c ∈ cs, isSpace c = false) → cs.dropWhile isSpace = cs := by
      intro cs hcs
      cases cs with
      | nil => rfl
      | cons c cs => rw [List.dropWhile_cons, hcs c List.mem_cons_self, if_neg Bool.false_ne_true]
    rw [trim, trimStart, hdrop hspace, trimEnd, hdrop fun c hc ↦ hspace c (List.mem_reverse.1 hc),
      List.reverse_reverse]
  simp only [entryName?, hbefore, htrim]
  rw [if_pos (by simpa [hne] using hword), String.ofList_toList]
  simp

theorem entryKind?_lineOf (kind : EntryKind) (name : String) (id : UInt16) (tail : List Char) :
    entryKind? (lineOf kind name id tail)
      = some (kind, name.toList ++ ':' :: ' ' :: ((idText id).toList ++ tail)) := by
  cases kind <;> rfl

/-- A line with its id written out puts in its entry, wherever the counter stands. -/
theorem readLines_lineOf {kind : EntryKind} {name : String} {id : UInt16} {tail : List Char}
    (hname : IsEntryName name) (htail : ∀ c ∈ tail.head?, isSpace c = true) (n next : Nat)
    (v : Vocabulary) (rest : List (List Char)) :
    readLines n next v (lineOf kind name id tail :: rest) = readLines (n + 1) (id.toNat + 1)
      (v.insert kind name id ((words tail).map String.ofList)) rest := by
  obtain ⟨digits, hid, hvalue, hspace⟩ := exists_toList_idText id
  have hwords : words (' ' :: ((idText id).toList ++ tail)) =
      ('0' :: 'x' :: digits) :: words tail := by
    rw [words_cons_space (by decide), words_append (hid ▸ List.cons_ne_nil _ _) hspace htail, hid]
  have hentry : entryId? next (('0' :: 'x' :: digits) :: words tail) =
      some (id.toNat, words tail) := by
    rw [entryId?, hvalue]
    rfl
  rw [readLines, entryKind?_lineOf]
  simp only [entryName?_append hname, hwords, hentry]
  rw [if_pos id.toNat_lt, UInt16.ofNat_toNat]

/-! ## Listings -/

/-- All that reading a vocabulary makes sure of. -/
structure WellRead (v : Vocabulary) : Prop where
  /-- The table of commands can be put together again from what it lists. -/
  commands_filled : v.commands.Filled
  /-- The table of globals can be put together again from what it lists. -/
  globals_filled : v.globals.Filled
  /-- A command is found under its own name, and its names have no blanks in them. -/
  command : ∀ {name c}, v.commands.get? name = some c →
    c.name = name ∧ IsEntryName name ∧ ∀ p ∈ c.params, IsSpaceless p.toList
  /-- A global is found under its own name. -/
  global : ∀ {name g}, v.globals.get? name = some g → g.name = name ∧ IsEntryName name

theorem wellRead_empty : empty.WellRead where
  commands_filled := Table.filled_empty
  globals_filled := Table.filled_empty
  command h := nomatch (Table.get?_empty _).symm.trans h
  global h := nomatch (Table.get?_empty _).symm.trans h

theorem WellRead.insert {v : Vocabulary} (h : v.WellRead) (kind : EntryKind) {name : String}
    (hname : IsEntryName name) (id : UInt16) {params : List String}
    (hparams : ∀ p ∈ params, IsSpaceless p.toList) : (v.insert kind name id params).WellRead := by
  cases kind with
  | cmd =>
    refine ⟨h.commands_filled.insert name _, h.globals_filled, fun {other c} hc ↦ ?_, h.global⟩
    rw [Vocabulary.insert, Table.get?_insert] at hc
    split at hc
    next heq =>
      subst heq
      cases hc
      exact ⟨rfl, hname, hparams⟩
    next => exact h.command hc
  | glob =>
    refine ⟨h.commands_filled, h.globals_filled.insert name _, h.command, fun {other g} hg ↦ ?_⟩
    rw [Vocabulary.insert, Table.get?_insert] at hg
    split at hg
    next heq =>
      subst heq
      cases hg
      exact ⟨rfl, hname⟩
    next => exact h.global hg

theorem isEntryName_of_entryName? {rest more : List Char} {name : String}
    (h : entryName? rest = some (name, more)) : IsEntryName name := by
  rw [entryName?] at h
  split at h
  next hcond =>
    obtain ⟨rfl, -⟩ := Prod.mk.inj (Option.some.inj h)
    simp only [Bool.and_eq_true, Bool.not_eq_true', List.isEmpty_eq_false_iff,
      List.all_eq_true] at hcond
    rw [IsEntryName, String.toList_ofList]
    exact ⟨hcond.1.2, hcond.2⟩
  next => cases h

theorem params_subset_of_entryId? {next id : Nat} {ws params : List (List Char)}
    (h : entryId? next ws = some (id, params)) : params ⊆ ws := by
  unfold entryId? at h
  split at h
  · obtain ⟨_, -, heq⟩ := Option.map_eq_some_iff.1 h
    obtain ⟨-, rfl⟩ := Prod.mk.inj heq
    exact List.subset_cons_self _ _
  · obtain ⟨_, -, heq⟩ := Option.map_eq_some_iff.1 h
    obtain ⟨-, rfl⟩ := Prod.mk.inj heq
    exact List.subset_cons_self _ _
  · obtain ⟨-, rfl⟩ := Prod.mk.inj (Option.some.inj h)
    exact List.subset_cons_self _ _
  · obtain ⟨-, rfl⟩ := Prod.mk.inj (Option.some.inj h)
    exact List.Subset.refl _

theorem WellRead.readLines {ls : List (List Char)} {n next : Nat} {v u : Vocabulary}
    (hv : v.WellRead)
    (h : readLines n next v ls = .ok u) : u.WellRead := by
  induction ls generalizing n next v with
  | nil =>
    cases h
    exact hv
  | cons l ls ih =>
    rw [Vocabulary.readLines] at h
    split at h
    · exact ih hv h
    · split at h
      · cases h
      next kind rest _ _ name more hname =>
        split at h
        · cases h
        next id params hid =>
          split at h
          · refine ih (hv.insert kind (isEntryName_of_entryName? hname) _ fun p hp ↦ ?_) h
            obtain ⟨w, hw, rfl⟩ := List.mem_map.1 hp
            rw [String.toList_ofList]
            exact isSpaceless_of_mem_words (params_subset_of_entryId? hid hw)
          · cases h

theorem wellRead_of_parse {text : String} {v : Vocabulary} (h : parse text = .ok v) : v.WellRead :=
  wellRead_empty.readLines h

/-- The line of a command in a listing. -/
def Command.line (c : Command) : List Char :=
  lineOf .cmd c.name c.opcode (' ' :: [' '].intercalate (c.params.map String.toList))

def Global.line (g : Global) : List Char :=
  lineOf .glob g.name g.slot []

theorem map_toList_listing (v : Vocabulary) : v.listing.map String.toList
    = v.commands.values.map Command.line ++ v.globals.values.map Global.line := by
  rw [listing, List.map_append, List.map_map, List.map_map]
  congr 1
  · refine List.map_congr_left fun c _ ↦ ?_
    simp only [Function.comp_apply, String.toList_append, String.toList_intercalate,
      Command.line, lineOf]
    simp [EntryKind.word]
  · refine List.map_congr_left fun g _ ↦ ?_
    simp only [Function.comp_apply, String.toList_append, Global.line, lineOf]
    simp [EntryKind.word]

theorem IsEntryName.onlyBlanks {name : String} (h : IsEntryName name) : OnlyBlanks name.toList :=
  IsSpaceless.onlyBlanks ⟨h.1, fun c hc ↦ isSpace_eq_false (h.2 c hc)⟩

theorem onlyBlanks_lineOf {kind : EntryKind} {name : String} {id : UInt16} {tail : List Char}
    (hname : IsEntryName name) (htail : OnlyBlanks tail) :
      OnlyBlanks (lineOf kind name id tail) := by
  obtain ⟨digits, hid, -, hspace⟩ := exists_toList_idText id
  have hword : OnlyBlanks (kind.word.toList ++ [' ']) := by cases kind <;> decide
  have hid' : OnlyBlanks (idText id).toList :=
    IsSpaceless.onlyBlanks ⟨hid ▸ List.cons_ne_nil _ _, hspace⟩
  have hmark : OnlyBlanks [':', ' '] := by decide
  have hsplit : lineOf kind name id tail = (kind.word.toList ++ [' ']) ++ (name.toList ++
      ([':', ' '] ++ ((idText id).toList ++ tail))) := by
    simp [lineOf]
  rw [hsplit]
  simp only [onlyBlanks_append]
  exact ⟨onlyBlanks_append.1 hword, hname.onlyBlanks, hmark, hid', htail⟩

theorem WellRead.onlyBlanks {v : Vocabulary} (h : v.WellRead) :
    ∀ l ∈ v.listing, OnlyBlanks l.toList := by
  intro l hl
  have hmem : l.toList ∈ v.listing.map String.toList := List.mem_map_of_mem hl
  rw [map_toList_listing, List.mem_append, List.mem_map, List.mem_map] at hmem
  obtain ⟨c, hc, heq⟩ | ⟨g, hg, heq⟩ := hmem
  · obtain ⟨name, hget⟩ := Table.mem_values_iff.1 hc
    obtain ⟨rfl, hname, hparams⟩ := h.command hget
    rw [← heq]
    have htail := onlyBlanks_intercalate (List.forall_mem_map.2 hparams)
    exact onlyBlanks_lineOf hname (List.forall_mem_cons.2 ⟨fun _ ↦ rfl, htail⟩)
  · obtain ⟨name, hget⟩ := Table.mem_values_iff.1 hg
    obtain ⟨rfl, hname⟩ := h.global hget
    rw [← heq]
    exact onlyBlanks_lineOf hname (by decide)

/-- Lines of globals put in their entries. -/
theorem readLines_globals {gs : List Global} (h : ∀ g ∈ gs, IsEntryName g.name) (n next : Nat)
    (v : Vocabulary) : readLines n next v (gs.map Global.line)
      = .ok { v with globals := gs.foldl (fun t g ↦ t.insert g.name g) v.globals } := by
  induction gs generalizing n next v with
  | nil => rfl
  | cons g gs ih =>
    rw [List.map_cons, Global.line, readLines_lineOf (h g List.mem_cons_self) (by simp),
      ih fun x hx ↦ h x (List.mem_cons_of_mem _ hx)]
    rfl

theorem readLines_commands {cs : List Command}
    (h : ∀ c ∈ cs, IsEntryName c.name ∧ ∀ p ∈ c.params, IsSpaceless p.toList) (n next : Nat)
    (v : Vocabulary) (rest : List (List Char)) :
    ∃ n' next', readLines n next v (cs.map Command.line ++ rest) = readLines n' next'
      { v with commands := cs.foldl (fun t c ↦ t.insert c.name c) v.commands } rest := by
  induction cs generalizing n next v with
  | nil => exact ⟨n, next, rfl⟩
  | cons c cs ih =>
    obtain ⟨hname, hparams⟩ := h c List.mem_cons_self
    have hwords : (words (' ' :: [' '].intercalate (c.params.map String.toList))).map String.ofList
        = c.params := by
      rw [words_cons_space (by decide), words_intercalate (List.forall_mem_map.2 hparams),
        List.map_map]
      simp
    rw [List.map_cons, List.cons_append, Command.line,
      readLines_lineOf hname (by simp [isSpace, spaceRanges]), hwords]
    exact ih (fun x hx ↦ h x (List.mem_cons_of_mem _ hx)) _ _ _

theorem foldl_insert_values {α : Type} (nameOf : α → String) {t : Table α} (h : t.Filled)
    (hnames : ∀ {name a}, t.get? name = some a → nameOf a = name) :
    t.values.foldl (fun t a ↦ t.insert (nameOf a) a) .empty = t := by
  have hlist : t.toList = t.values.map fun a ↦ (nameOf a, a) := by
    rw [Table.values, List.map_map]
    refine (List.map_id _).symm.trans (List.map_congr_left fun e hmem ↦ ?_)
    exact Prod.ext (hnames (Table.mem_toList_iff_get?.1 hmem)).symm rfl
  conv_rhs => rw [← h, hlist, Table.ofList, List.foldl_map]

/-- What is printed of a vocabulary that was read reads as the same vocabulary, with all its entries
in their places. -/
theorem parse_listing {text : String} {v : Vocabulary} (h : parse text = .ok v) :
    parse (CommandLine.Report.ofResult false (.vocabulary v)).output = .ok v := by
  have hread := wellRead_of_parse h
  have hcommands : ∀ c ∈ v.commands.values,
      IsEntryName c.name ∧ ∀ p ∈ c.params, IsSpaceless p.toList := by
    intro c hc
    obtain ⟨name, hget⟩ := Table.mem_values_iff.1 hc
    obtain ⟨rfl, hname, hparams⟩ := hread.command hget
    exact ⟨hname, hparams⟩
  have hglobals : ∀ g ∈ v.globals.values, IsEntryName g.name := by
    intro g hg
    obtain ⟨name, hget⟩ := Table.mem_values_iff.1 hg
    obtain ⟨rfl, hname⟩ := hread.global hget
    exact hname
  show parse (CommandLine.Report.block v.listing) = .ok v
  obtain ⟨n, next, hlines⟩ :=
    readLines_commands hcommands 1 0 empty (v.globals.values.map Global.line)
  rw [parse, lines_block hread.onlyBlanks, map_toList_listing, hlines, readLines_globals hglobals]
  have hc := foldl_insert_values Command.name hread.commands_filled fun hget ↦
    (hread.command hget).1
  have hg := foldl_insert_values Global.name hread.globals_filled fun hget ↦ (hread.global hget).1
  show Except.ok (⟨_, _⟩ : Vocabulary) = .ok v
  rw [show (empty : Vocabulary).commands = .empty from rfl, hc]
  rw [show (empty : Vocabulary).globals = .empty from rfl, hg]

/-- The counter goes on from a global to a command, a name is given twice, and a parameter looks
like an id. -/
theorem parse_listing_sample : ∃ v,
    parse "glob Health: 0x1ff\ncmd Wait: .. frames 0x2\ncmd Wait: 0xA frames\ncmd Nop:" = .ok v ∧
      v.listing = ["cmd Wait: 0x0A frames", "cmd Nop: 0x0B ", "glob Health: 0x1FF"] ∧
      parse (CommandLine.Report.ofResult false (.vocabulary v)).output = .ok v := by
  have hlisting : (parse
      "glob Health: 0x1ff\ncmd Wait: .. frames 0x2\ncmd Wait: 0xA frames\ncmd Nop:").toOption.map
        listing
      = some ["cmd Wait: 0x0A frames", "cmd Nop: 0x0B ", "glob Health: 0x1FF"] := by decide +kernel
  obtain ⟨v, hv, hlist⟩ := Option.map_eq_some_iff.1 hlisting
  have hparse := Running.toOption_eq_some.1 hv
  exact ⟨v, hparse, hlist, parse_listing hparse⟩

end Vocabulary

end CharacterScript
