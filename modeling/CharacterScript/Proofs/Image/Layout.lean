import CharacterScript.Proofs.Image.Operands
import CharacterScript.Proofs.Image.Reader
import CharacterScript.Proofs.Reachable

/-!
# The layout of an image

What a loader finds in an image. `ScopeAt` and `CallableAt` say that a scope or a callable can be
read at an offset and where it ends; `Laid` goes through the slots of a header and says that the
bodies they point to follow each other without a gap.

## Two halves

A body is written on its own before the pointers are known, so the proof has two halves. The first
is about one body: wherever its bytes stand, they read as that body. The second is about offsets:
pointers that are sums of lengths point to where the bodies stand.

## What a loader may rely on

The layout is described by what can be read, with readers that know nothing of how images are
written (`Image.Reader`). So the statement is one for a loader: it finds a header, counts that are
those of the program, pointers that are zero for what is not there, and at each other pointer a
body that can be read to its end, where the next one starts. The last one ends with the image.
-/

namespace CharacterScript

open Running

namespace Image

variable {v : Vocabulary}

/-! ## What is read at an offset

That a scope can be read somewhere says all that is in it: its counts, the words of its code, its
numbers and its strings. -/

/-- A scope can be read at the offset `o`, and ends at `stop`. The words of its code fill the space
up to its numbers. -/
def ScopeAt (v : Vocabulary) (bytes : List UInt8) (o : Nat) (s : Scope) (stop : Nat) : Prop :=
  ∃ numbers strings words, u16At bytes o = some s.instructions.size ∧
    u16At bytes (o + 2) = some numbers ∧ u16At bytes (o + 4) = some strings ∧
    numbers = scopeHead + 2 * words.length ∧
    wordsAt bytes (o + scopeHead) words.length = some words ∧
    CodeSpelledBy v s.instructions.toList words ∧
    (∀ i x, s.numbers[i]? = some x → u32At bytes (o + numbers + 4 * i) = some x.toBits.toNat) ∧
    (∀ i t, s.strings[i]? = some t →
      nthString bytes (o + strings) i = some t.toUTF8.data.toList) ∧
    skipStrings bytes (o + strings) s.strings.size = some stop

/-- A callable with its scope can be read at the offset `o`, and ends at `stop`, behind the NUL of
its name. -/
def CallableAt (v : Vocabulary) (bytes : List UInt8) (o : Nat) (c : Callable) (s : Scope)
    (stop : Nat) : Prop :=
  ∃ name, u8At bytes o = some c.refCount.toNat ∧ u8At bytes (o + 1) = some c.params.length ∧
    u16At bytes (o + 2) = some name ∧ ScopeAt v bytes (o + 4) s (o + name) ∧
    nameAt bytes (o + name) = some c.ident.name.toUTF8.data.toList ∧
    stop = o + name + c.ident.name.toUTF8.data.toList.length + 1

/-- What a pointer of the header can point to. -/
inductive Body where
  | callable (c : Callable) (s : Scope)
  | scope (s : Scope)

def BodyAt (v : Vocabulary) (bytes : List UInt8) (o : Nat) : Body → Nat → Prop
  | .callable c s, stop => CallableAt v bytes o c s stop
  | .scope s, stop => ScopeAt v bytes o s stop

/-- The pointers belong to the bodies slot by slot. Those that are not zero point to bodies which
follow each other from `o` on, and the last one ends at `stop`. -/
def Laid (v : Vocabulary) (bytes : List UInt8) (o : Nat) : List (Option Body) →
    List Nat → Nat → Prop
  | [], [], stop => o = stop
  | none :: bodies, pointer :: pointers, stop => pointer = 0 ∧ Laid v bytes o bodies pointers stop
  | some body :: bodies, pointer :: pointers, stop =>
    pointer = o ∧ ∃ next, o < next ∧ BodyAt v bytes o body next ∧
      Laid v bytes next bodies pointers stop
  | _, _, _ => False

/-- What the slot of a callable stands for at a depth. -/
def slotBody (p : Program) (depth : Nat) (c : Callable) : Option Body :=
  (bodyAt? p depth c).map (.callable c)

/-- What the slots of an image stand for: `main` and the scripts, the functions, and the anonymous
scopes of the layer. -/
def bodies (p : Program) (depth : Nat) : List (Option Body) :=
  (p.main.bind (slotBody p depth) :: p.scripts.values.map (slotBody p depth)) ++
    p.functions.values.map (slotBody p depth) ++
    (p.anonymous depth).toList.map fun id ↦ (p.scope? id).map .scope

theorem Laid.zero_iff {bytes : List UInt8} : ∀ {bodies : List (Option Body)} {pointers : List Nat}
    {o stop : Nat}, Laid v bytes o bodies pointers stop → 0 < o →
      ∀ i : Nat, pointers[i]? = some 0 ↔ bodies[i]? = some none
  | [], [], _, _, _, _, i => by simp
  | none :: bodies, pointer :: pointers, o, stop, ⟨hpointer, hrest⟩, ho, i => by
    cases i with
    | zero => simp [hpointer]
    | succ i => simpa using hrest.zero_iff ho i
  | some body :: bodies, pointer :: pointers, o, stop, ⟨hpointer, next, hlt, _, hrest⟩, ho, i => by
    cases i with
    | zero => simp [hpointer, Nat.ne_of_gt ho]
    | succ i => simpa using hrest.zero_iff (ho.trans hlt) i

/-- The slots can be taken apart where their pointers can. -/
theorem Laid.append {bytes : List UInt8} {ys : List (Option Body)} {bs : List Nat} {stop : Nat} :
    ∀ {xs : List (Option Body)} {as : List Nat} {o : Nat}, as.length = xs.length →
      Laid v bytes o (xs ++ ys) (as ++ bs) stop →
        ∃ mid, o ≤ mid ∧ Laid v bytes o xs as mid ∧ Laid v bytes mid ys bs stop
  | [], [], o, _, h => ⟨o, Nat.le_refl o, rfl, h⟩
  | none :: xs, a :: as, o, hlength, ⟨hzero, hrest⟩ => by
    obtain ⟨mid, hle, hxs, hys⟩ := Laid.append (Nat.succ.inj hlength) hrest
    exact ⟨mid, hle, ⟨hzero, hxs⟩, hys⟩
  | some x :: xs, a :: as, o, hlength, ⟨hpointer, next, hlt, hbody, hrest⟩ => by
    obtain ⟨mid, hle, hxs, hys⟩ := Laid.append (Nat.succ.inj hlength) hrest
    exact ⟨mid, hlt.le.trans hle, ⟨hpointer, next, hlt, hbody, hxs⟩, hys⟩

/-! ## One body

Offsets inside of a body are relative to its start, so wherever it is put it reads the same. -/

private theorem count16_eq_ok {what : Counted} {n m : Nat} (h : count16 what n = .ok m) :
    m = n ∧ n < 65536 := by
  rw [count16] at h
  split at h
  · cases h
    exact ⟨rfl, by assumption⟩
  · contradiction

private theorem count8_eq_ok {what : Counted} {n m : Nat} (h : count8 what n = .ok m) :
    m = n ∧ n < 256 := by
  rw [count8] at h
  split at h
  · cases h
    exact ⟨rfl, by assumption⟩
  · contradiction

private theorem pointer16_eq_ok {what : Pointed} {n m : Nat} (h : pointer16 what n = .ok m) :
    m = n ∧ n < 65536 := by
  rw [pointer16] at h
  split at h
  · cases h
    exact ⟨rfl, by assumption⟩
  · contradiction

theorem mapM_eq_ok {α β ε : Type} {f : α → Except ε β} {as : List α} {bs : List β}
    (h : as.mapM f = .ok bs) : List.Forall₂ (fun a b ↦ f a = .ok b) as bs := by
  induction as generalizing bs with
  | nil =>
    rw [List.mapM_nil] at h
    cases h
    exact .nil
  | cons a as ih =>
    rw [List.mapM_cons] at h
    obtain ⟨b, hb, h₁⟩ := exceptBind_eq_ok.1 h
    obtain ⟨bs', hbs, h₂⟩ := exceptBind_eq_ok.1 h₁
    cases h₂
    exact .cons hb (ih hbs)

private theorem length_flatMap_bytes16 (words : List UInt16) :
    (words.flatMap fun w ↦ bytes16 w.toNat).length = 2 * words.length := by
  induction words with
  | nil => rfl
  | cons w words ih =>
    rw [List.flatMap_cons, List.length_append, ih, List.length_cons]
    simp only [bytes16, List.length_cons, List.length_nil]
    omega

private theorem length_flatMap_bytes32 (numbers : List Nat) :
    (numbers.flatMap bytes32).length = 4 * numbers.length := by
  induction numbers with
  | nil => rfl
  | cons n numbers ih =>
    rw [List.flatMap_cons, List.length_append, ih, List.length_cons]
    simp only [bytes32, List.length_cons, List.length_nil]
    omega

/-- The parts of a scope that was written, with the pointers to them. -/
private theorem scopeBytes_eq_ok {s : Scope} {piece : List UInt8} (h : scopeBytes v s = .ok piece) :
    ∃ (words : List UInt16) (entries : List (List UInt8)),
      CodeSpelledBy v s.instructions.toList words ∧
      s.instructions.size < 65536 ∧ scopeHead + 2 * words.length + 4 * s.numbers.size < 65536 ∧
      List.Forall₂ (fun s e ↦ stringBytes s = .ok e) s.strings.toList entries ∧
      piece = bytes16 s.instructions.size ++ (bytes16 (scopeHead + 2 * words.length) ++
        (bytes16 (scopeHead + 2 * words.length + 4 * s.numbers.size) ++
          ((words.flatMap fun w ↦ bytes16 w.toNat) ++
            ((s.numbers.toList.map fun x ↦ x.toBits.toNat).flatMap bytes32 ++
              entries.flatten)))) := by
  rw [scopeBytes] at h
  obtain ⟨words, hwords, h₁⟩ := exceptBind_eq_ok.1 h
  obtain ⟨count, hcount, h₂⟩ := exceptBind_eq_ok.1 h₁
  obtain ⟨numbers, hnumbers, h₃⟩ := exceptBind_eq_ok.1 h₂
  obtain ⟨strings, hstrings, h₄⟩ := exceptBind_eq_ok.1 h₃
  obtain ⟨entries, hentries, h₅⟩ := exceptBind_eq_ok.1 h₄
  obtain ⟨rfl, hcount'⟩ := count16_eq_ok hcount
  obtain ⟨rfl, -⟩ := pointer16_eq_ok hnumbers
  obtain ⟨rfl, hstrings'⟩ := pointer16_eq_ok hstrings
  cases h₅
  obtain ⟨written, hwritten, hcode⟩ := writeInstructions_spell hwords
  obtain rfl : words.toList = written := by simpa using hwritten
  refine ⟨words.toList, entries, hcode, hcount', ?_, mapM_eq_ok hentries, ?_⟩
  · rwa [Array.length_toList]
  · rw [Array.length_toList, List.flatMap_map]
    simp only [List.append_assoc]

/-- Wherever the bytes of a scope stand, the scope can be read. -/
theorem scopeAt_of_standsAt {s : Scope} {piece bytes : List UInt8} {o : Nat}
    (hpiece : scopeBytes v s = .ok piece) (h : StandsAt bytes o piece) :
    ScopeAt v bytes o s (o + piece.length) := by
  obtain ⟨words, entries, hspelled, hcount, hpointer, hentries, rfl⟩ := scopeBytes_eq_ok hpiece
  have hword : ∀ n, (bytes16 n).length = 2 := fun _ ↦ rfl
  have hnumbers : ((s.numbers.toList.map fun x ↦ x.toBits.toNat).flatMap bytes32).length
      = 4 * s.numbers.size := by
    rw [length_flatMap_bytes32, List.length_map, Array.length_toList]
  simp only [standsAt_append, hword, length_flatMap_bytes16, hnumbers] at h
  obtain ⟨h₁, h₂, h₃, h₄, h₅, h₆⟩ := h
  obtain ⟨hskip, hnth⟩ := strings_of_standsAt hentries h₆
  -- the strings start where their pointer says
  have hstart : o + 2 + 2 + 2 + 2 * words.length + 4 * s.numbers.size
      = o + (scopeHead + 2 * words.length + 4 * s.numbers.size) := by
    rw [scopeHead]
    omega
  rw [hstart] at hskip hnth
  refine ⟨scopeHead + 2 * words.length, scopeHead + 2 * words.length + 4 * s.numbers.size, words,
    u16At_bytes16 h₁ hcount, u16At_bytes16 h₂ (by omega), u16At_bytes16 h₃ hpointer, rfl,
    wordsAt_flatMap h₄, hspelled, fun i x hx ↦ ?_, fun i t ht ↦ ?_, ?_⟩
  · have hx' : (s.numbers.toList.map fun x ↦ x.toBits.toNat)[i]? = some x.toBits.toNat := by
      rw [List.getElem?_map, Array.getElem?_toList, hx, Option.map_some]
    have hread := u32At_flatMap h₅ hx' x.toBits.toNat_lt
    rw [← hread, scopeHead]
    congr 1
    omega
  · exact hnth (by rwa [Array.getElem?_toList])
  · have hsize : s.strings.toList.length = s.strings.size := Array.length_toList
    rw [← hsize, hskip]
    simp only [List.length_append, hword, length_flatMap_bytes16, hnumbers, scopeHead]
    congr 1
    omega

theorem scopeBytes_ne_nil {s : Scope} {piece : List UInt8} (h : scopeBytes v s = .ok piece) :
    piece ≠ [] := by
  obtain ⟨words, entries, -, -, -, -, rfl⟩ := scopeBytes_eq_ok h
  simp [bytes16]

/-- Wherever the bytes of a callable stand, the callable can be read. Its name must have no NUL. -/
theorem callableAt_of_standsAt {c : Callable} {s : Scope} {piece bytes : List UInt8} {o : Nat}
    (hname : IsWord c.ident.name) (hpiece : callableBytes v c s = .ok piece)
    (h : StandsAt bytes o piece) : CallableAt v bytes o c s (o + piece.length) := by
  rw [callableBytes] at hpiece
  obtain ⟨body, hbody, h₁⟩ := exceptBind_eq_ok.1 hpiece
  obtain ⟨name, hpointer, h₂⟩ := exceptBind_eq_ok.1 h₁
  obtain ⟨params, hparams, h₃⟩ := exceptBind_eq_ok.1 h₂
  obtain ⟨rfl, hpointer'⟩ := pointer16_eq_ok hpointer
  obtain ⟨rfl, hparams'⟩ := count8_eq_ok hparams
  cases h₃
  -- the bytes as a row of parts, so that each part is found where the ones before it end
  have hhead : c.refCount :: byte c.params.length :: bytes16 (callableHead + body.length) ++ body
      ++ c.ident.name.toUTF8.data.toList ++ [0]
      = [c.refCount] ++ ([byte c.params.length] ++ (bytes16 (callableHead + body.length) ++ (body
        ++ (c.ident.name.toUTF8.data.toList ++ [0])))) := by
    simp
  rw [hhead] at h ⊢
  rw [standsAt_append, standsAt_append, standsAt_append, standsAt_append] at h
  obtain ⟨h₁, h₂, h₃, h₄, h₅⟩ := h
  have hscope := scopeAt_of_standsAt hbody h₄
  refine ⟨callableHead + body.length, u8At_of_standsAt h₁, u8At_byte h₂ hparams',
    u16At_bytes16 h₃ hpointer', ?_, ?_, ?_⟩
  · rw [callableHead, ← Nat.add_assoc]
    exact hscope
  · rw [callableHead, ← Nat.add_assoc]
    exact nameAt_of_standsAt h₅ (ne_zero_of_isWord hname)
  · simp only [List.length_append, List.length_cons, List.length_nil, callableHead, bytes16]
    omega

theorem callableBytes_ne_nil {c : Callable} {s : Scope} {piece : List UInt8}
    (h : callableBytes v c s = .ok piece) : piece ≠ [] := by
  rw [callableBytes] at h
  obtain ⟨body, -, h₁⟩ := exceptBind_eq_ok.1 h
  obtain ⟨name, -, h₂⟩ := exceptBind_eq_ok.1 h₁
  obtain ⟨params, -, h₃⟩ := exceptBind_eq_ok.1 h₂
  cases h₃
  simp

/-! ## All slots

The pointers are running sums of the lengths of the bodies, and a slot without a body adds nothing
to the sum. -/

/-- What was written for a slot is what the slot stands for. -/
def Writes (v : Vocabulary) (slot : Option (List UInt8)) (body : Option Body) : Prop :=
  match slot, body with
  | none, none => True
  | some piece, some body =>
    piece ≠ [] ∧ ∀ bytes o, StandsAt bytes o piece → BodyAt v bytes o body (o + piece.length)
  | _, _ => False

theorem exceptMap_eq_ok {α β ε : Type} {f : α → β} {x : Except ε α} {b : β}
    (h : x.map f = .ok b) : ∃ a, x = .ok a ∧ f a = b := by
  cases x with
  | ok a =>
    cases h
    exact ⟨a, rfl, rfl⟩
  | error e => contradiction

theorem writes_callableSlot {p : Program} {depth : Nat} {c : Callable}
    {slot : Option (List UInt8)} (hname : IsWord c.ident.name)
    (h : callableSlot v p depth c = .ok slot) : Writes v slot (slotBody p depth c) := by
  rw [callableSlot] at h
  rw [slotBody]
  split at h
  next hbody =>
    cases h
    rw [hbody]
    trivial
  next s hbody =>
    obtain ⟨piece, hpiece, rfl⟩ := exceptMap_eq_ok h
    rw [hbody]
    exact ⟨callableBytes_ne_nil hpiece, fun _ _ ↦ callableAt_of_standsAt hname hpiece⟩

theorem writes_scopeSlot {p : Program} {id : ScopeId} {slot : Option (List UInt8)}
    (h : scopeSlot v p id = .ok slot) : Writes v slot ((p.scope? id).map .scope) := by
  rw [scopeSlot] at h
  split at h
  next hscope =>
    cases h
    rw [hscope]
    trivial
  next s hscope =>
    obtain ⟨piece, hpiece, rfl⟩ := exceptMap_eq_ok h
    rw [hscope]
    exact ⟨scopeBytes_ne_nil hpiece, fun _ _ ↦ scopeAt_of_standsAt hpiece⟩

/-- Slots that are written one by one stand for what each of them stands for. -/
private theorem writes_mapM {α : Type} {f : α → Except ImageError (Option (List UInt8))}
    {g : α → Option Body} {as : List α} {slots : List (Option (List UInt8))}
    (h : as.mapM f = .ok slots) (hfg : ∀ a ∈ as, ∀ {slot}, f a = .ok slot → Writes v slot (g a)) :
    List.Forall₂ (Writes v) slots (as.map g) := by
  have hall := mapM_eq_ok h
  clear h
  induction hall with
  | nil => exact .nil
  | cons hslot _ ih =>
    exact .cons (hfg _ List.mem_cons_self hslot)
      (ih fun a ha ↦ hfg a (List.mem_cons_of_mem _ ha))

/-- The pointers that are made for slots put one behind the other. -/
def Pointing (o : Nat) : List (Option (List UInt8)) → List Nat → Prop
  | [], [] => True
  | none :: slots, pointer :: pointers => pointer = 0 ∧ Pointing o slots pointers
  | some piece :: slots, pointer :: pointers =>
    pointer = o ∧ o < Nat.pow 2 32 ∧ Pointing (o + piece.length) slots pointers
  | _, _ => False

private theorem pointers_eq_ok : ∀ {slots : List (Option (List UInt8))} {o : Nat}
    {done result : List Nat}, pointers o done slots = .ok result →
      ∃ made, result = done.reverse ++ made ∧ Pointing o slots made
  | [], o, done, result, h => by
    rw [pointers] at h
    cases h
    exact ⟨[], by simp, trivial⟩
  | none :: slots, o, done, result, h => by
    rw [pointers] at h
    obtain ⟨made, rfl, hmade⟩ := pointers_eq_ok h
    exact ⟨0 :: made, by simp, rfl, hmade⟩
  | some piece :: slots, o, done, result, h => by
    rw [pointers] at h
    split at h
    next hsmall =>
      obtain ⟨made, rfl, hmade⟩ := pointers_eq_ok h
      exact ⟨o :: made, by simp, rfl, hsmall, hmade⟩
    next => contradiction

theorem Pointing.length_eq : ∀ {slots : List (Option (List UInt8))} {o : Nat}
    {made : List Nat}, Pointing o slots made → made.length = slots.length
  | [], _, [], _ => rfl
  | none :: _, _, _ :: _, ⟨_, h⟩ => by rw [List.length_cons, List.length_cons, h.length_eq]
  | some _ :: _, _, _ :: _, ⟨_, _, h⟩ => by rw [List.length_cons, List.length_cons, h.length_eq]

theorem Pointing.small : ∀ {slots : List (Option (List UInt8))} {o : Nat}
    {made : List Nat}, Pointing o slots made → ∀ n ∈ made, n < Nat.pow 2 32
  | [], _, [], _, n, hn => nomatch hn
  | none :: _, _, _ :: _, ⟨hzero, h⟩, n, hn => by
    rcases List.mem_cons.1 hn with rfl | hn
    · rw [hzero]
      decide
    · exact h.small n hn
  | some _ :: _, _, _ :: _, ⟨hpointer, hsmall, h⟩, n, hn => by
    rcases List.mem_cons.1 hn with rfl | hn
    · rwa [hpointer]
    · exact h.small n hn

/-- If what was written for the slots stands one behind the other from `o` on, the pointers made
from there on lead to the bodies. -/
private theorem Pointing.laid {bytes : List UInt8} : ∀ {slots : List (Option (List UInt8))}
    {bodies : List (Option Body)} {o : Nat} {made : List Nat}, Pointing o slots made →
      List.Forall₂ (Writes v) slots bodies → StandsAt bytes o (slots.flatMap (·.getD [])) →
        Laid v bytes o bodies made (o + (slots.flatMap (·.getD [])).length)
  | [], [], _, [], _, _, _ => rfl
  | none :: slots, none :: bodies, o, pointer :: made, ⟨hzero, hrest⟩, .cons _ hwrites, h =>
    ⟨hzero, hrest.laid hwrites h⟩
  | some piece :: slots, some body :: bodies, o, pointer :: made, ⟨hpointer, _, hrest⟩,
    .cons ⟨hne, hread⟩ hwrites, h => by
    rw [List.flatMap_cons, standsAt_append] at h
    have hlaid := hrest.laid hwrites h.2
    refine ⟨hpointer, o + piece.length, ?_, hread bytes o h.1, ?_⟩
    · have := List.length_pos_iff.2 hne
      omega
    · rw [List.flatMap_cons, List.length_append, ← Nat.add_assoc]
      exact hlaid
  | some _ :: _, none :: _, _, _, _, .cons hwrites _, _ => nomatch hwrites
  | none :: _, some _ :: _, _, _, _, .cons hwrites _, _ => nomatch hwrites

/-! ## Whole images -/

/-- The header that was written can be read, and what follows it stands where it ends. -/
private theorem readHeader_eq {bytes rest : List UInt8} {globals : Nat}
    {scripts functions scopes : List Nat} (hglobals : globals < 256)
    (hscripts : scripts.length < 256) (hfunctions : functions.length < 256)
    (hscopes : scopes.length < 65536)
    (hsmall : ∀ n ∈ scripts ++ functions ++ scopes, n < Nat.pow 2 32)
    (h : StandsAt bytes 0 ([byte globals] ++ ([byte scripts.length] ++ (scripts.flatMap bytes32 ++
      ([byte functions.length] ++ (functions.flatMap bytes32 ++ (bytes16 scopes.length ++
        (scopes.flatMap bytes32 ++ rest)))))))) :
    readHeader bytes = some ⟨globals, scripts.length, scripts, functions.length, functions,
        scopes.length, scopes, headerLength scripts.length functions.length scopes.length⟩ ∧
      StandsAt bytes (headerLength scripts.length functions.length scopes.length) rest := by
  have hword : ∀ n, (bytes16 n).length = 2 := fun _ ↦ rfl
  simp only [standsAt_append, List.length_singleton, length_flatMap_bytes32, hword, Nat.zero_add,
    Nat.reduceAdd] at h
  obtain ⟨h₁, h₂, h₃, h₄, h₅, h₆, h₇, hrest⟩ := h
  have hpart : ∀ part : List Nat, part ⊆ scripts ++ functions ++ scopes →
      ∀ n ∈ part, n < Nat.pow 2 32 := fun part hsub n hn ↦ hsmall n (hsub hn)
  have r₃ := pointersAt_flatMap h₃ (hpart _ (by simp))
  have r₅ := pointersAt_flatMap h₅ (hpart _ (by simp))
  have r₇ := pointersAt_flatMap h₇ (hpart _ (by simp))
  refine ⟨?_, hrest⟩
  simp only [readHeader, Option.bind_eq_bind, u8At_byte h₁ hglobals, u8At_byte h₂ hscripts, r₃,
    u8At_byte h₄ hfunctions, r₅, u16At_bytes16 h₆ hscopes, r₇, Option.bind_some]
  rfl

/-- The slot of `main` comes before those of the other scripts. -/
theorem scriptSlots_eq_ok {p : Program} {depth : Nat} {slots : List (Option (List UInt8))}
    (h : scriptSlots v p depth = .ok slots) :
    ∃ main rest, slots = main :: rest ∧ (p.main = none → main = none) ∧
      (∀ c, p.main = some c → callableSlot v p depth c = .ok main) ∧
      p.scripts.values.mapM (callableSlot v p depth) = .ok rest := by
  rw [scriptSlots] at h
  cases hmain : p.main with
  | none =>
    rw [hmain] at h
    obtain ⟨slot, hslot, h₁⟩ := exceptBind_eq_ok.1 h
    obtain ⟨rest, hrest, h₂⟩ := exceptBind_eq_ok.1 h₁
    cases hslot
    cases h₂
    exact ⟨none, rest, rfl, fun _ ↦ rfl, nofun, hrest⟩
  | some c =>
    rw [hmain] at h
    obtain ⟨slot, hslot, h₁⟩ := exceptBind_eq_ok.1 h
    obtain ⟨rest, hrest, h₂⟩ := exceptBind_eq_ok.1 h₁
    cases h₂
    exact ⟨slot, rest, rfl, nofun, fun _ hc ↦ Option.some.inj hc ▸ hslot, hrest⟩

theorem writes_scriptSlots {p : Program} {depth : Nat} {slots : List (Option (List UInt8))}
    (hp : p.Sound) (h : scriptSlots v p depth = .ok slots) :
    List.Forall₂ (Writes v) slots
      (p.main.bind (slotBody p depth) :: p.scripts.values.map (slotBody p depth)) := by
  obtain ⟨main, rest, rfl, hnone, hsome, hrest⟩ := scriptSlots_eq_ok h
  refine .cons ?_ (writes_mapM hrest fun c hc _ ↦ writes_callableSlot (hp.scripts c hc).isWord)
  cases hmain : p.main with
  | none =>
    rw [hnone hmain]
    trivial
  | some c => exact writes_callableSlot (hp.main hmain).isWord (hsome c hmain)

/-- The parts of an image: what was written for its slots, and the pointers to it, each for scripts,
functions and anonymous scopes. -/
structure Parts where
  /-- The bodies of the scripts, where this depth has one. -/
  scriptSlots : List (Option (List UInt8))
  /-- The bodies of the functions, where this depth has one. -/
  functionSlots : List (Option (List UInt8))
  /-- The bodies of the anonymous scopes. -/
  scopeSlots : List (Option (List UInt8))
  /-- The pointers to the bodies of scripts, zero where there is none. -/
  scripts : List Nat
  /-- The pointers to the bodies of functions, zero where there is none. -/
  functions : List Nat
  /-- The pointers to the bodies of anonymous scopes. -/
  scopes : List Nat

namespace Parts

def slots (parts : Parts) : List (Option (List UInt8)) :=
  parts.scriptSlots ++ parts.functionSlots ++ parts.scopeSlots

def pointers (parts : Parts) : List Nat :=
  parts.scripts ++ parts.functions ++ parts.scopes

/-- Where the bodies start. -/
def start (parts : Parts) : Nat :=
  headerLength parts.scripts.length parts.functions.length parts.scopes.length

/-- These are the parts that the image of a program has. -/
structure Of (parts : Parts) (v : Vocabulary) (p : Program) (depth : Nat) : Prop where
  /-- The bodies of the scripts are what is written for them. -/
  scriptSlots : Image.scriptSlots v p depth = .ok parts.scriptSlots
  /-- The bodies of the functions are what is written for them. -/
  functionSlots : p.functions.values.mapM (callableSlot v p depth) = .ok parts.functionSlots
  /-- The bodies of the anonymous scopes are what is written for them. -/
  scopeSlots : (p.anonymous depth).toList.mapM (scopeSlot v p) = .ok parts.scopeSlots
  /-- Each script has a pointer. -/
  length_scripts : parts.scripts.length = parts.scriptSlots.length
  /-- Each function has a pointer. -/
  length_functions : parts.functions.length = parts.functionSlots.length
  /-- Each anonymous scope has a pointer. -/
  length_scopes : parts.scopes.length = parts.scopeSlots.length
  /-- The number of globals fits in its byte. -/
  few_globals : p.globals.size < 256
  /-- The number of scripts fits in its byte. -/
  few_scripts : parts.scripts.length < 256
  /-- The number of functions fits in its byte. -/
  few_functions : parts.functions.length < 256
  /-- The number of anonymous scopes fits in its word. -/
  few_scopes : parts.scopes.length < 65536
  /-- The bodies are put one behind the other, and each pointer is the offset of its body. -/
  pointing : Pointing parts.start parts.slots parts.pointers

/-- The bytes that the parts are put together to. -/
def bytes (parts : Parts) (globals : Nat) : List UInt8 :=
  [byte globals] ++ ([byte parts.scripts.length] ++ (parts.scripts.flatMap bytes32 ++
    ([byte parts.functions.length] ++ (parts.functions.flatMap bytes32 ++
      (bytes16 parts.scopes.length ++ (parts.scopes.flatMap bytes32 ++
        parts.slots.flatMap (·.getD [])))))))

end Parts

/-- An image is put together from its parts. -/
theorem image_eq_ok {p : Program} {depth : Nat} {bytes : List UInt8}
    (h : image p depth v = .ok bytes) :
    ∃ parts : Parts, parts.Of v p depth ∧ bytes = parts.bytes p.globals.size := by
  rw [image] at h
  obtain ⟨scriptSlots, hscripts, h₁⟩ := exceptBind_eq_ok.1 h
  obtain ⟨functionSlots, hfunctions, h₂⟩ := exceptBind_eq_ok.1 h₁
  obtain ⟨scopeSlots, hscopes, h₃⟩ := exceptBind_eq_ok.1 h₂
  obtain ⟨globalCount, hglobalCount, h₄⟩ := exceptBind_eq_ok.1 h₃
  obtain ⟨scriptCount, hscriptCount, h₅⟩ := exceptBind_eq_ok.1 h₄
  obtain ⟨functionCount, hfunctionCount, h₆⟩ := exceptBind_eq_ok.1 h₅
  obtain ⟨scopeCount, hscopeCount, h₇⟩ := exceptBind_eq_ok.1 h₆
  obtain ⟨made, hmade, h₈⟩ := exceptBind_eq_ok.1 h₇
  obtain ⟨rfl, hglobals⟩ := count8_eq_ok hglobalCount
  obtain ⟨rfl, hscripts'⟩ := count8_eq_ok hscriptCount
  obtain ⟨rfl, hfunctions'⟩ := count8_eq_ok hfunctionCount
  obtain ⟨rfl, hscopes'⟩ := count16_eq_ok hscopeCount
  cases h₈
  obtain ⟨made', hmade', hpointing⟩ := pointers_eq_ok hmade
  rw [List.reverse_nil, List.nil_append] at hmade'
  subst hmade'
  -- the pointers are cut where the slots were joined
  have hlength := hpointing.length_eq
  rw [List.length_append, List.length_append] at hlength
  have hlength₁ : (made.take scriptSlots.length).length = scriptSlots.length := by
    rw [List.length_take]
    omega
  have hlength₂ : ((made.drop scriptSlots.length).take functionSlots.length).length
      = functionSlots.length := by
    rw [List.length_take, List.length_drop]
    omega
  have hlength₃ : (made.drop (scriptSlots.length + functionSlots.length)).length
      = scopeSlots.length := by
    rw [List.length_drop]
    omega
  have hjoin : made.take scriptSlots.length ++ (made.drop scriptSlots.length).take
      functionSlots.length ++ made.drop (scriptSlots.length + functionSlots.length) = made := by
    rw [← List.drop_drop, List.append_assoc, List.take_append_drop, List.take_append_drop]
  refine ⟨⟨scriptSlots, functionSlots, scopeSlots, made.take scriptSlots.length,
    (made.drop scriptSlots.length).take functionSlots.length,
    made.drop (scriptSlots.length + functionSlots.length)⟩, ?_, ?_⟩
  · refine ⟨hscripts, hfunctions, hscopes, hlength₁, hlength₂, hlength₃, hglobals, ?_, ?_, ?_, ?_⟩
    · exact hlength₁.trans_lt hscripts'
    · exact hlength₂.trans_lt hfunctions'
    · exact hlength₃.trans_lt hscopes'
    · simp only [Parts.start, Parts.slots, Parts.pointers]
      rw [hjoin, hlength₁, hlength₂, hlength₃]
      exact hpointing
  · simp only [Parts.bytes, Parts.slots]
    rw [hlength₁, hlength₂, hlength₃]
    simp

namespace Parts.Of

variable {parts : Parts} {p : Program} {depth : Nat}

/-- The header of an image is read as its parts say, and the bodies stand where it ends. -/
theorem readHeader (h : parts.Of v p depth) :
    Image.readHeader (parts.bytes p.globals.size) = some ⟨p.globals.size, parts.scripts.length,
        parts.scripts, parts.functions.length, parts.functions, parts.scopes.length, parts.scopes,
        parts.start⟩ ∧
      StandsAt (parts.bytes p.globals.size) parts.start (parts.slots.flatMap (·.getD [])) :=
  readHeader_eq h.few_globals h.few_scripts h.few_functions h.few_scopes h.pointing.small
    (standsAt_of_eq rfl)

/-- There are as many pointers as the program has callables and the layer has anonymous scopes, and
one for `main`. -/
theorem counts (h : parts.Of v p depth) :
    parts.scripts.length = 1 + p.scripts.size ∧ parts.functions.length = p.functions.size ∧
      parts.scopes.length = (p.anonymous depth).size := by
  refine ⟨?_, ?_, ?_⟩
  · obtain ⟨main, rest, heq, -, -, hrest⟩ := scriptSlots_eq_ok h.scriptSlots
    rw [h.length_scripts, heq, List.length_cons, ← (mapM_eq_ok hrest).length_eq,
      Table.length_values, Nat.add_comm]
  · rw [h.length_functions, ← (mapM_eq_ok h.functionSlots).length_eq, Table.length_values]
  · rw [h.length_scopes, ← (mapM_eq_ok h.scopeSlots).length_eq, Array.length_toList]

/-- What was written for the slots is what they stand for. -/
theorem writes (h : parts.Of v p depth) (hp : p.Sound) :
    List.Forall₂ (Writes v) parts.slots (bodies p depth) := by
  have hscripts := writes_scriptSlots hp h.scriptSlots
  have hfunctions : List.Forall₂ (Writes v) parts.functionSlots
      (p.functions.values.map (slotBody p depth)) :=
    writes_mapM h.functionSlots fun c hc _ ↦ writes_callableSlot (hp.functions c hc).isWord
  have hscopes : List.Forall₂ (Writes v) parts.scopeSlots
      ((p.anonymous depth).toList.map fun id ↦ (p.scope? id).map .scope) :=
    writes_mapM h.scopeSlots fun id _ _ ↦ writes_scopeSlot
  exact List.rel_append (List.rel_append hscripts hfunctions) hscopes

end Parts.Of

/-- A callable has nothing in its slot if it was not compiled at this depth or has no body. -/
private theorem slotBody_eq_none_iff {p : Program} {depth : Nat} {c : Callable}
    (hc : c.Sound p.depth p.scopes.size) :
    slotBody p depth c = none ↔ c.depth ≠ depth ∨ c.body = none := by
  rw [slotBody, Option.map_eq_none_iff, bodyAt?]
  by_cases hdepth : c.depth = depth
  · rw [if_pos hdepth]
    cases hbody : c.body with
    | none => simp
    | some id =>
      have hlt : id < p.scopes.size := hc.body_lt hbody
      simp [hdepth, Program.scope?, hlt]
  · rw [if_neg hdepth]
    simp [hdepth]

end Image

open Image in
/-- An image of any program a session reaches can be read back. Its header counts the globals, the
scripts with `main`, the functions and the anonymous scopes of the layer; the slot of a callable is
empty exactly if the callable belongs to another layer or has no body; and the slots that are not
empty point to their bodies, which fill the image from the end of the header to its end. -/
theorem image_layout {s : Session} (hs : s.Reachable) {depth : Nat} {v : Vocabulary}
    {bytes : List UInt8} (h : image s.program depth v = .ok bytes) :
    ∃ header, readHeader bytes = some header ∧
      header.globalCount = s.program.globals.size ∧
      header.scriptCount = 1 + s.program.scripts.size ∧
      header.functionCount = s.program.functions.size ∧
      header.scopeCount = (s.program.anonymous depth).size ∧
      (header.scripts[0]? = some 0 ↔
        ∀ c, s.program.main = some c → c.depth ≠ depth ∨ c.body = none) ∧
      (∀ (i : Nat) c, s.program.scripts.values[i]? = some c →
        (header.scripts[i + 1]? = some 0 ↔ c.depth ≠ depth ∨ c.body = none)) ∧
      (∀ (i : Nat) c, s.program.functions.values[i]? = some c →
        (header.functions[i]? = some 0 ↔ c.depth ≠ depth ∨ c.body = none)) ∧
      0 ∉ header.scopes ∧
      Laid v bytes header.stop (bodies s.program depth) header.pointers bytes.length := by
  have hp := hs.sound
  obtain ⟨parts, hparts, rfl⟩ := image_eq_ok h
  obtain ⟨hheader, hbodies⟩ := hparts.readHeader
  obtain ⟨hscripts, hfunctions, hscopes⟩ := hparts.counts
  have hlaid := hparts.pointing.laid (hparts.writes hp) hbodies
  have hstop : parts.start + (parts.slots.flatMap (·.getD [])).length
      = (parts.bytes s.program.globals.size).length := by
    simp only [Parts.bytes, Parts.start, List.length_append, length_flatMap_bytes32, headerLength,
      bytes16, List.length_cons, List.length_nil]
    omega
  rw [hstop] at hlaid
  have hpos : 0 < parts.start := by
    rw [Parts.start, headerLength]
    omega
  refine ⟨_, hheader, rfl, hscripts, hfunctions, hscopes, ?_⟩
  -- the slots of the three kinds are looked at one after the other
  obtain ⟨mid, hle, hfirst, hlast⟩ := Laid.append (by
    rw [List.length_append, List.length_append, List.length_cons, List.length_map, List.length_map,
      Table.length_values, Table.length_values, hscripts, hfunctions, Nat.add_comm 1]) hlaid
  obtain ⟨mid', hle', hscriptSlots, hfunctionSlots⟩ := Laid.append (by
    rw [List.length_cons, List.length_map, Table.length_values, hscripts, Nat.add_comm]) hfirst
  refine ⟨?_, fun i c hc ↦ ?_, fun i c hc ↦ ?_, ?_, hlaid⟩
  · rw [hscriptSlots.zero_iff hpos 0]
    cases hmain : s.program.main with
    | none => simp
    | some c => simp [slotBody_eq_none_iff (hp.main hmain)]
  · have hmem := List.mem_of_getElem? hc
    rw [hscriptSlots.zero_iff hpos (i + 1), List.getElem?_cons_succ, List.getElem?_map, hc,
      Option.map_some, Option.some.injEq, slotBody_eq_none_iff (hp.scripts c hmem)]
  · have hmem := List.mem_of_getElem? hc
    rw [hfunctionSlots.zero_iff (hpos.trans_le hle') i, List.getElem?_map, hc, Option.map_some,
      Option.some.injEq, slotBody_eq_none_iff (hp.functions c hmem)]
  · intro hzero
    obtain ⟨i, hi⟩ := List.mem_iff_getElem?.1 hzero
    rw [hlast.zero_iff (hpos.trans_le hle) i, List.getElem?_map, Option.map_eq_some_iff] at hi
    obtain ⟨id, hid, hnone⟩ := hi
    obtain ⟨scope, hscope, -⟩ := hp.mem_anonymous.1 (List.mem_of_getElem? hid)
    rw [hscope] at hnone
    contradiction

open Image in
/-- The image of the sample: a function, `main` and three anonymous scopes. -/
theorem image_layout_sample : ∃ bytes header,
    image (Sample.start.compileLayer Sample.source).2.program 1 Sample.vocabulary = .ok bytes ∧
      readHeader bytes = some header ∧
      header.scopeCount
        = ((Sample.start.compileLayer Sample.source).2.program.anonymous 1).size ∧
      0 ∉ header.scopes := by
  obtain ⟨bytes, hbytes⟩ : ∃ bytes,
      image (Sample.start.compileLayer Sample.source).2.program 1 Sample.vocabulary =
        .ok bytes := by
    have hok : (image (Sample.start.compileLayer Sample.source).2.program 1
        Sample.vocabulary).toBool = true := by decide +kernel
    cases h : image (Sample.start.compileLayer Sample.source).2.program 1 Sample.vocabulary with
    | ok bytes => exact ⟨bytes, rfl⟩
    | error e =>
      rw [h] at hok
      contradiction
  obtain ⟨header, hheader, -, -, -, hscopes, -, -, -, hzero, -⟩ :=
    image_layout (Sample.reachable_start.layer Sample.source) hbytes
  exact ⟨bytes, header, hbytes, hheader, hscopes, hzero⟩

end CharacterScript
