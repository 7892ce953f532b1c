import CharacterScript.Image
import CharacterScript.Proofs.Lexemes
import Mathlib.Data.List.Forall2

/-!
# Reading an image back

What a loader of images does with its bytes: it takes little-endian numbers at offsets, follows
pointers, reads names up to their NUL and skips strings by their length. Nothing here knows how an
image is written. A reader has no answer where the bytes end too early.

## Pieces

Writing and reading meet in `StandsAt`: a piece of bytes stands at an offset of the whole. A piece
made of parts stands somewhere exactly if its parts stand one behind the other (`standsAt_append`),
and for each kind of part there is one lemma that says what is read where it stands.
-/

namespace CharacterScript

namespace Image

/-! ## Numbers -/

def u8At (bytes : List UInt8) (offset : Nat) : Option Nat :=
  match bytes.drop offset with
  | a :: _ => some a.toNat
  | _ => none

def u16At (bytes : List UInt8) (offset : Nat) : Option Nat :=
  match bytes.drop offset with
  | a :: b :: _ => some (a.toNat + 256 * b.toNat)
  | _ => none

def u32At (bytes : List UInt8) (offset : Nat) : Option Nat :=
  match bytes.drop offset with
  | a :: b :: c :: d :: _ =>
    some (a.toNat + 256 * b.toNat + 65536 * c.toNat + 16777216 * d.toNat)
  | _ => none

/-- So many pointers, one behind the other. -/
def pointersAt (bytes : List UInt8) (offset : Nat) : Nat → Option (List Nat)
  | 0 => some []
  | n + 1 => do
    let pointer ← u32At bytes offset
    let rest ← pointersAt bytes (offset + 4) n
    some (pointer :: rest)

/-- So many words one behind the other. -/
def wordsAt (bytes : List UInt8) (offset : Nat) : Nat → Option (List UInt16)
  | 0 => some []
  | n + 1 => do
    let word ← u16At bytes offset
    let rest ← wordsAt bytes (offset + 2) n
    some (UInt16.ofNat word :: rest)

/-! ## Texts -/

/-- The bytes up to the next NUL. -/
def nameAt (bytes : List UInt8) (offset : Nat) : Option (List UInt8) :=
  let rest := bytes.drop offset
  let name := rest.takeWhile (· != 0)
  if name.length < rest.length then some name else none

/-- A string with its length in front, and where it ends. -/
def stringAt (bytes : List UInt8) (offset : Nat) : Option (List UInt8 × Nat) :=
  match bytes.drop offset with
  | n :: rest =>
    if n.toNat ≤ rest.length then some (rest.take n.toNat, offset + 1 + n.toNat) else none
  | [] => none

/-- The offset after so many strings. -/
def skipStrings (bytes : List UInt8) (offset : Nat) : Nat → Option Nat
  | 0 => some offset
  | n + 1 => (stringAt bytes offset).bind fun s ↦ skipStrings bytes s.2 n

/-- The string that comes after so many others. -/
def nthString (bytes : List UInt8) (offset n : Nat) : Option (List UInt8) :=
  (skipStrings bytes offset n).bind fun start ↦ (stringAt bytes start).map (·.1)

/-! ## Headers -/

/-- What the head of an image says: how many of each kind there are, and where their bodies start.
-/
structure Header where
  /-- How many globals there are. -/
  globalCount : Nat
  /-- How many scripts there are, with the one a program starts with. -/
  scriptCount : Nat
  /-- Where their bodies start, zero for those that have none in this image. -/
  scripts : List Nat
  /-- How many functions there are. -/
  functionCount : Nat
  /-- Where their bodies start, zero for those that have none in this image. -/
  functions : List Nat
  /-- How many anonymous scopes there are. -/
  scopeCount : Nat
  /-- Where their bodies start. -/
  scopes : List Nat
  /-- Where the header ends. -/
  stop : Nat
  deriving DecidableEq

/-- The pointers of an image in the order of their slots. -/
def Header.pointers (h : Header) : List Nat :=
  h.scripts ++ h.functions ++ h.scopes

def readHeader (bytes : List UInt8) : Option Header := do
  let globalCount ← u8At bytes 0
  let scriptCount ← u8At bytes 1
  let scripts ← pointersAt bytes 2 scriptCount
  let afterScripts := 2 + 4 * scriptCount
  let functionCount ← u8At bytes afterScripts
  let functions ← pointersAt bytes (afterScripts + 1) functionCount
  let afterFunctions := afterScripts + 1 + 4 * functionCount
  let scopeCount ← u16At bytes afterFunctions
  let scopes ← pointersAt bytes (afterFunctions + 2) scopeCount
  some ⟨globalCount, scriptCount, scripts, functionCount, functions, scopeCount, scopes,
    afterFunctions + 2 + 4 * scopeCount⟩

/-! ## Pieces

The lemmas have the form: if these bytes stand at an offset, then this is what is read there. They
are put together along `standsAt_append`, and no proof ever counts the bytes of an image as a
whole. -/

/-- The piece stands at the offset. -/
def StandsAt (bytes : List UInt8) (offset : Nat) (piece : List UInt8) : Prop :=
  piece <+: bytes.drop offset

variable {bytes piece more : List UInt8} {o : Nat}

theorem standsAt_of_eq (h : bytes = piece) : StandsAt bytes 0 piece := by
  subst h
  exact List.prefix_rfl

theorem standsAt_append :
    StandsAt bytes o (piece ++ more) ↔
      StandsAt bytes o piece ∧ StandsAt bytes (o + piece.length) more := by
  rw [StandsAt, StandsAt, StandsAt, ← List.drop_drop]
  constructor
  · rintro ⟨rest, hrest⟩
    rw [← hrest, List.append_assoc]
    exact ⟨List.prefix_append _ _, by simp⟩
  · rintro ⟨⟨rest, hrest⟩, hmore⟩
    rw [← hrest, List.drop_left] at hmore
    rw [← hrest]
    exact (List.prefix_append_right_inj piece).2 hmore

private theorem toNat_byte (n : Nat) : (byte n).toNat = n % 256 := by
  simp [byte]

theorem u8At_of_standsAt {b : UInt8} (h : StandsAt bytes o [b]) : u8At bytes o = some b.toNat := by
  obtain ⟨rest, hrest⟩ := h
  rw [u8At, ← hrest]
  rfl

theorem u8At_byte {n : Nat} (h : StandsAt bytes o [byte n]) (hn : n < 256) :
    u8At bytes o = some n := by
  rw [u8At_of_standsAt h, toNat_byte, Nat.mod_eq_of_lt hn]

theorem u16At_bytes16 {n : Nat} (h : StandsAt bytes o (bytes16 n)) (hn : n < 65536) :
    u16At bytes o = some n := by
  obtain ⟨rest, hrest⟩ := h
  rw [u16At, ← hrest]
  simp only [bytes16, List.cons_append, List.nil_append, toNat_byte, Option.some.injEq]
  omega

theorem u32At_bytes32 {n : Nat} (h : StandsAt bytes o (bytes32 n)) (hn : n < Nat.pow 2 32) :
    u32At bytes o = some n := by
  obtain ⟨rest, hrest⟩ := h
  rw [u32At, ← hrest]
  simp only [bytes32, List.cons_append, List.nil_append, toNat_byte, Option.some.injEq]
  have hn' : n < 4294967296 := hn
  omega

theorem pointersAt_flatMap {pointers : List Nat} {o : Nat}
    (h : StandsAt bytes o (pointers.flatMap bytes32)) (hsmall : ∀ n ∈ pointers, n < Nat.pow 2 32) :
    pointersAt bytes o pointers.length = some pointers := by
  induction pointers generalizing o with
  | nil => rfl
  | cons n rest ih =>
    rw [List.flatMap_cons, standsAt_append] at h
    have hfirst := u32At_bytes32 h.1 (hsmall n List.mem_cons_self)
    have hrest := ih h.2 fun m hm ↦ hsmall m (List.mem_cons_of_mem n hm)
    rw [List.length_cons, pointersAt, hfirst]
    simp only [Option.bind_eq_bind, Option.bind_some]
    rw [show o + 4 = o + (bytes32 n).length from rfl, hrest]
    rfl

theorem wordsAt_flatMap {words : List UInt16} {o : Nat}
    (h : StandsAt bytes o (words.flatMap fun w ↦ bytes16 w.toNat)) :
    wordsAt bytes o words.length = some words := by
  induction words generalizing o with
  | nil => rfl
  | cons w rest ih =>
    rw [List.flatMap_cons, standsAt_append] at h
    rw [List.length_cons, wordsAt, u16At_bytes16 h.1 w.toNat_lt]
    simp only [Option.bind_eq_bind, Option.bind_some]
    rw [show o + 2 = o + (bytes16 w.toNat).length from rfl, ih h.2, UInt16.ofNat_toNat]
    rfl

/-- The number at a place of a row of numbers. -/
theorem u32At_flatMap : ∀ {numbers : List Nat} {o i n : Nat},
    StandsAt bytes o (numbers.flatMap bytes32) → numbers[i]? = some n → n < Nat.pow 2 32 →
      u32At bytes (o + 4 * i) = some n
  | m :: rest, o, 0, n, h, hi, hn => by
    rw [List.flatMap_cons, standsAt_append] at h
    cases hi
    exact u32At_bytes32 h.1 hn
  | m :: rest, o, i + 1, n, h, hi, hn => by
    rw [List.flatMap_cons, standsAt_append] at h
    have hrest := u32At_flatMap h.2 (by simpa using hi) hn
    rw [show (bytes32 m).length = 4 from rfl] at hrest
    rw [← hrest]
    congr 1
    omega

theorem nameAt_of_standsAt {name : List UInt8} (h : StandsAt bytes o (name ++ [0]))
    (hname : ∀ b ∈ name, b ≠ 0) : nameAt bytes o = some name := by
  obtain ⟨rest, hrest⟩ := h
  have htake : (name ++ [0] ++ rest).takeWhile (· != 0) = name := by
    rw [List.append_assoc, List.takeWhile_append_of_pos (by simpa using hname)]
    simp
  rw [nameAt, ← hrest, htake, if_pos]
  simp

/-- A name of word characters has no NUL in it. -/
theorem ne_zero_of_isWord {s : String} (h : IsWord s) : ∀ b ∈ s.toUTF8.data.toList, b ≠ 0 := by
  intro b hb
  rw [String.toUTF8_eq_toByteArray, ← String.utf8Encode_toList, List.utf8Encode,
    List.toList_data_toByteArray, List.mem_flatMap] at hb
  obtain ⟨c, hc, hb⟩ := hb
  obtain ⟨hpos, hlt⟩ := isWordChar_range (h c hc)
  have hsize : c.utf8Size = 1 := by
    rw [Char.utf8Size, if_pos]
    rw [UInt32.le_iff_toNat_le]
    exact Nat.le_of_lt_succ hlt
  rw [String.utf8EncodeChar_eq_singleton hsize, List.mem_singleton] at hb
  rintro rfl
  have hzero := congrArg UInt8.toNat hb
  rw [UInt32.toNat_toUInt8, Nat.mod_eq_of_lt (by omega)] at hzero
  exact absurd hzero.symm (Nat.ne_of_gt hpos)

/-! ## Strings

A string is found by skipping those before it, so the strings of a scope can be read in order
only. -/

theorem stringAt_of_standsAt {s : String} {entry : List UInt8} (hentry : stringBytes s = .ok entry)
    (h : StandsAt bytes o entry) :
    stringAt bytes o = some (s.toUTF8.data.toList, o + entry.length) := by
  rw [stringBytes] at hentry
  split at hentry
  next hshort =>
    cases hentry
    obtain ⟨rest, hrest⟩ := h
    rw [stringAt, ← hrest, List.cons_append]
    dsimp only
    rw [toNat_byte, Nat.mod_eq_of_lt hshort, if_pos (by simp), List.take_left, List.length_cons]
    congr 2
    omega
  next => contradiction

/-- A row of strings is read one by one: skipping all of them leads to its end, and after `i` of
them comes the next one. -/
theorem strings_of_standsAt : ∀ {strings : List String} {entries : List (List UInt8)} {o : Nat},
    List.Forall₂ (fun s e ↦ stringBytes s = .ok e) strings entries →
    StandsAt bytes o entries.flatten →
      skipStrings bytes o strings.length = some (o + entries.flatten.length) ∧
      ∀ {i s}, strings[i]? = some s → nthString bytes o i = some s.toUTF8.data.toList
  | [], [], _, _, _ => ⟨by simp [skipStrings], fun h ↦ by simp at h⟩
  | s :: strings, e :: entries, o, .cons hentry hentries, h => by
    rw [List.flatten_cons, standsAt_append] at h
    have hfirst := stringAt_of_standsAt hentry h.1
    obtain ⟨hskip, hnth⟩ := strings_of_standsAt hentries h.2
    constructor
    · rw [List.length_cons, skipStrings, hfirst, Option.bind_some, hskip, List.flatten_cons,
        List.length_append, Nat.add_assoc]
    · intro i t hi
      cases i with
      | zero =>
        cases hi
        rw [nthString, skipStrings, Option.bind_some, hfirst]
        rfl
      | succ i =>
        have hrest := hnth (by simpa using hi)
        rw [nthString] at hrest ⊢
        rw [skipStrings, hfirst, Option.bind_some]
        exact hrest

end Image

end CharacterScript
