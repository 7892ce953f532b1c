import CharacterScript.Image
import CharacterScript.Proofs.Computation
import CharacterScript.Proofs.TableLaws
import Mathlib.Data.List.Nodup

/-!
# Reading operands back

The words of an operand carry no lengths. A reader has only the tag of each word, the numbers of
operands that functions and commands take, and the one operator that is not binary. Here is such a
reader. It keeps the operands of which only a part has been read, the innermost first, as a stack of
`Frame`s. A word either is an operand, which then fills the innermost frame, or opens a frame of its
own; the reading is over when an operand is complete and no frame is left. So the reader goes once
through the words, and it stops by itself where the operand ends.

## What words leave out

A word cannot tell an absolute global from a command, and it has no room for the name of a function.
So opcodes must differ from each other and from the slots of globals (`Vocabulary.Unambiguous`), and
an operand comes back without the names of functions (`Operand.unnamed`). Plain words and calls of
scripts have no tag at all; they stand outside the operands that can be read (`Operand.Regular`).

## Between writing and reading

Between the writer and the reader stands a relation: `SpelledBy` says which words an operand has,
whatever kind of operand it is. The writer gives such words (`writeOperand_spells`), and the words
of a regular operand are read as that operand (`readsBack_of_spelledBy`). The words of instructions
are described in the same way.
-/

namespace CharacterScript

open Running

/-! ## Vocabularies and operands -/

namespace Vocabulary

/-- A command has this opcode. -/
def HasOpcode (v : Vocabulary) (opcode : UInt16) : Prop :=
  ∃ name c, v.command? name = some c ∧ c.opcode = opcode

/-- A global of the runtime has this slot. -/
def HasSlot (v : Vocabulary) (slot : UInt16) : Prop :=
  ∃ name g, v.global? name = some g ∧ g.slot = slot

/-- An opcode belongs to one command and is not the slot of a global. -/
structure Unambiguous (v : Vocabulary) : Prop where
  /-- Two commands have two opcodes. -/
  opcode_inj : ∀ {name name' c c'}, v.command? name = some c → v.command? name' = some c' →
    c.opcode = c'.opcode → name = name'
  /-- No opcode is also the slot of a global. -/
  opcode_not_slot : ∀ {opcode}, v.HasOpcode opcode → ¬v.HasSlot opcode

theorem unambiguous_iff {v : Vocabulary} :
    v.Unambiguous ↔ (v.commands.values.map (·.opcode)).Nodup ∧
      ∀ c ∈ v.commands.values, ∀ g ∈ v.globals.values, c.opcode ≠ g.slot := by
  have hnodup : (v.commands.values.map (·.opcode)).Nodup ↔
      ∀ e ∈ v.commands.toList, ∀ e' ∈ v.commands.toList, e.2.opcode = e'.2.opcode → e = e' := by
    rw [Table.values, List.map_map]
    exact List.nodup_map_iff_inj_on (Table.nodup_names v.commands).of_map
  rw [hnodup]
  constructor
  · rintro ⟨hinj, hslot⟩
    refine ⟨?_, fun c hc g hg heq ↦ ?_⟩
    · rintro ⟨name, c⟩ hc ⟨name', c'⟩ hc' heq
      rw [Table.mem_toList_iff_get?] at hc hc'
      obtain rfl := hinj hc hc' heq
      cases hc.symm.trans hc'
      rfl
    · obtain ⟨name, hname⟩ := Table.mem_values_iff.1 hc
      obtain ⟨name', hname'⟩ := Table.mem_values_iff.1 hg
      exact hslot ⟨name, c, hname, rfl⟩ ⟨name', g, hname', heq.symm⟩
  · rintro ⟨hinj, hslot⟩
    refine ⟨fun {name name' c c'} hc hc' heq ↦ ?_, ?_⟩
    · exact (Prod.mk.inj (hinj (name, c) (Table.mem_toList_iff_get?.2 hc) (name', c')
        (Table.mem_toList_iff_get?.2 hc') heq)).1
    · rintro _ ⟨name, c, hc, rfl⟩ ⟨name', g, hg, heq⟩
      exact hslot c (Table.mem_values_iff.2 ⟨name, hc⟩) g (Table.mem_values_iff.2 ⟨name', hg⟩)
        heq.symm

instance (v : Vocabulary) : Decidable v.Unambiguous :=
  decidable_of_iff _ unambiguous_iff.symm

/-- The command with an opcode, and its name. -/
def withOpcode? (v : Vocabulary) (opcode : UInt16) : Option (String × Command) :=
  v.commands.toList.find? (·.2.opcode == opcode)

theorem withOpcode?_eq_none {v : Vocabulary} {opcode : UInt16} (h : ¬v.HasOpcode opcode) :
    v.withOpcode? opcode = none := by
  rw [withOpcode?, List.find?_eq_none]
  rintro ⟨name, c⟩ hmem heq
  exact h ⟨name, c, Table.mem_toList_iff_get?.1 hmem, eq_of_beq heq⟩

/-- With one command to an opcode, the command found is the one that has it. -/
theorem Unambiguous.withOpcode? {v : Vocabulary} (hv : v.Unambiguous) {name : String} {c : Command}
    (hc : v.command? name = some c) : v.withOpcode? c.opcode = some (name, c) := by
  rw [Vocabulary.withOpcode?]
  cases hfind : v.commands.toList.find? (·.2.opcode == c.opcode) with
  | none =>
    have hmem := Table.mem_toList_iff_get?.2 hc
    exact absurd (beq_self_eq_true c.opcode) (List.find?_eq_none.1 hfind _ hmem)
  | some entry =>
    obtain ⟨name', c'⟩ := entry
    have hc' : v.command? name' = some c' :=
      Table.mem_toList_iff_get?.1 (List.mem_of_find?_eq_some hfind)
    have hopcode : c'.opcode = c.opcode := by simpa using List.find?_some hfind
    obtain rfl := hv.opcode_inj hc' hc hopcode
    cases hc.symm.trans hc'
    rfl

end Vocabulary

mutual

/-- An operand that can be read back, if functions take as many operands as `arity` says: calls have
the operands their callees take, and an absolute global is one of the runtime, or at least has no
slot that is an opcode. -/
def Operand.Regular (v : Vocabulary) (arity : UInt16 → Nat) : Operand → Prop
  | .number _ | .text _ | .var _ => True
  | .global slot relative => relative = true ∨ v.HasSlot slot ∨ ¬v.HasOpcode slot
  | .raw _ => False
  | .call .function id _ args => args.length = arity id ∧ operandsRegular v arity args
  | .call .builtin id name args =>
    (∃ c, v.command? name = some c ∧ c.opcode = id ∧ c.isVariadic = false ∧
      args.length = c.arity) ∧ operandsRegular v arity args
  | .call .script _ _ _ => False
  | .not inner => inner.Regular v arity
  | .binary _ left right => left.Regular v arity ∧ right.Regular v arity

def operandsRegular (v : Vocabulary) (arity : UInt16 → Nat) : List Operand → Prop
  | [] => True
  | o :: rest => o.Regular v arity ∧ operandsRegular v arity rest

end

mutual

/-- The operand without the names of functions. -/
def Operand.unnamed : Operand → Operand
  | .call .function id _ args => .call .function id "" (unnamedOperands args)
  | .call target id name args => .call target id name (unnamedOperands args)
  | .not inner => .not inner.unnamed
  | .binary op left right => .binary op left.unnamed right.unnamed
  | o => o

def unnamedOperands : List Operand → List Operand
  | [] => []
  | o :: rest => o.unnamed :: unnamedOperands rest

end

/-! ## The reader

The reader goes through the words once. The stack holds what was opened and is not yet complete,
so no word is looked at twice and the nesting of operands is not bounded by anything. -/

/-- The binary operator with a number. -/
def BinOp.ofCode? (n : Nat) : Option BinOp :=
  [or, and, bitOr, bitXor, bitAnd, eq, ne, gt, ge, lt, le, shl, shr, add, sub, mul, div, mod].find?
    (·.code == n)

theorem BinOp.ofCode?_code (op : BinOp) : ofCode? op.code = some op := by
  cases op <;> rfl

theorem BinOp.code_lt_notCode (op : BinOp) : op.code < Operand.notCode := by
  cases op <;> decide

namespace Image

/-- An operand of which a part has been read. -/
inductive Frame where
  | not
  | left (op : BinOp)
  | right (op : BinOp) (left : Operand)
  /-- A call with the operands read so far, last one first; after the next one so many are
  missing. -/
  | call (target : CallTarget) (id : UInt16) (name : String) (done : List Operand) (missing : Nat)

/-- What a word starts: an operand, or a frame to be filled by the words after it. -/
inductive Start where
  | whole (o : Operand)
  | part (f : Frame)

/-- A call that takes so many operands. -/
def Start.call (target : CallTarget) (id : UInt16) (name : String) : Nat → Start
  | 0 => .whole (.call target id name [])
  | n + 1 => .part (.call target id name [] n)

/-- What an operator with a number starts. -/
def Start.operator? (n : Nat) : Option Start :=
  if n = Operand.notCode then some (.part .not)
  else (BinOp.ofCode? n).map fun op ↦ .part (.left op)

/-- What a word starts. Its low three bits say what the others are. -/
def start? (v : Vocabulary) (arity : UInt16 → Nat) (word : UInt16) : Option Start :=
  let payload := UInt16.ofNat (word.toNat / 8)
  match word.toNat % 8 with
  | 0 => some (.whole (.number payload))
  | 1 => some (.whole (.text payload))
  | 2 => some (.call .function payload "" (arity payload))
  | 3 => some (.whole (.var payload))
  | 4 =>
    match v.withOpcode? payload with
    | some (name, c) => some (.call .builtin payload name c.arity)
    | none => some (.whole (.global payload false))
  | 5 => some (.whole (.global payload true))
  | 6 => Start.operator? payload.toNat
  | _ => none

/-- How far a reading has got. -/
inductive Progress where
  | done (o : Operand)
  | going (frames : List Frame)

/-- A complete operand fills the innermost frame, and may complete it in turn. -/
def fill (o : Operand) : List Frame → Progress
  | [] => .done o
  | .not :: frames => fill (.not o) frames
  | .left op :: frames => .going (.right op o :: frames)
  | .right op left :: frames => fill (.binary op left o) frames
  | .call target id name done 0 :: frames =>
    fill (.call target id name (o :: done).reverse) frames
  | .call target id name done (n + 1) :: frames =>
    .going (.call target id name (o :: done) n :: frames)

/-- Reads on with these frames open. The answer is the operand and the words that are left. -/
def readFrom (v : Vocabulary) (arity : UInt16 → Nat) (frames : List Frame) :
    List UInt16 → Option (Operand × List UInt16)
  | [] => none
  | word :: words =>
    match start? v arity word with
    | none => none
    | some (.part f) => readFrom v arity (f :: frames) words
    | some (.whole o) =>
      match fill o frames with
      | .done o => some (o, words)
      | .going frames => readFrom v arity frames words

/-- Reads one operand. -/
def readOperand (v : Vocabulary) (arity : UInt16 → Nat) (words : List UInt16) :
    Option (Operand × List UInt16) :=
  readFrom v arity [] words

/-! ## What words spell -/

/-- The word has a tag in its low three bits and this number in the others. -/
def IsTagged (word : UInt16) (tag : Tag) (payload : Nat) : Prop :=
  word.toNat % 8 = tag.code ∧ word.toNat / 8 = payload

/-- The word in front of the operands of a call. Scripts have no tag. -/
def StartsCall (target : CallTarget) (id word : UInt16) : Prop :=
  match target with
  | .function => IsTagged word .function id.toNat
  | .builtin => IsTagged word .global id.toNat
  | .script => word = id

mutual

/-- The words of an operand: those of a call and of an operator are followed by the words of their
operands. -/
def SpelledBy : Operand → List UInt16 → Prop
  | .number index, words => ∃ word, words = [word] ∧ IsTagged word .number index.toNat
  | .text index, words => ∃ word, words = [word] ∧ IsTagged word .text index.toNat
  | .var slot, words => ∃ word, words = [word] ∧ IsTagged word .var slot.toNat
  | .global slot relative, words => ∃ word, words = [word] ∧
    IsTagged word (if relative then .relativeGlobal else .global) slot.toNat
  | .raw value, words => words = [value]
  | .call target id _ args, words =>
    ∃ word more, words = word :: more ∧ StartsCall target id word ∧ AllSpelledBy args more
  | .not inner, words => ∃ word more, words = word :: more ∧
    IsTagged word .expression Operand.notCode ∧ SpelledBy inner more
  | .binary op left right, words => ∃ word first second, words = word :: (first ++ second) ∧
    IsTagged word .expression op.code ∧ SpelledBy left first ∧ SpelledBy right second

/-- The words of operands, one behind the other. -/
def AllSpelledBy : List Operand → List UInt16 → Prop
  | [], words => words = []
  | o :: rest, words => ∃ first second, words = first ++ second ∧ SpelledBy o first ∧
    AllSpelledBy rest second

end

/-- The words of instructions: the opcode of each command, and the words of its operands. -/
def CodeSpelledBy (v : Vocabulary) : List Instruction → List UInt16 → Prop
  | [], words => words = []
  | i :: rest, words => ∃ c first second, v.command? i.command = some c ∧
    words = c.opcode :: (first ++ second) ∧ AllSpelledBy i.args first ∧ CodeSpelledBy v rest second

/-! ## Words -/

section

variable {v : Vocabulary} {arity : UInt16 → Nat}

/-- The word that was written for a tag and a payload falls apart into the two. -/
theorem isTagged_of_tagged {tag : Tag} {what : Payload} {payload : Nat} {word : UInt16}
    (h : tagged tag what payload = .ok word) : IsTagged word tag payload := by
  have htag : tag.code < 8 := by cases tag <;> decide
  rw [tagged] at h
  split at h
  next hsmall =>
    cases h
    have hsmall' : payload < 8192 := hsmall
    rw [IsTagged, UInt16.toNat_ofNat_of_lt' (show 8 * payload + tag.code < 65536 by omega)]
    omega
  next => contradiction

theorem startsCall_of_callWord {target : CallTarget} {id word : UInt16}
    (h : callWord target id = .ok word) : StartsCall target id word := by
  cases target with
  | function | builtin => exact isTagged_of_tagged h
  | script =>
    cases h
    rfl

theorem IsTagged.payload {tag : Tag} {x word : UInt16} (h : IsTagged word tag x.toNat) :
    UInt16.ofNat (word.toNat / 8) = x := by
  rw [h.2]
  exact UInt16.ofNat_toNat

theorem start?_operator {n : Nat} {word : UInt16} (h : IsTagged word .expression n) :
    start? v arity word = Start.operator? n := by
  have hn : n < 65536 := h.2 ▸ Nat.lt_of_le_of_lt (Nat.div_le_self _ _) word.toNat_lt
  rw [start?, h.1, h.2]
  show Start.operator? (UInt16.ofNat n).toNat = Start.operator? n
  rw [UInt16.toNat_ofNat_of_lt' hn]

theorem start?_not {word : UInt16} (h : IsTagged word .expression Operand.notCode) :
    start? v arity word = some (.part .not) :=
  start?_operator h

theorem start?_binary {op : BinOp} {word : UInt16} (h : IsTagged word .expression op.code) :
    start? v arity word = some (.part (.left op)) := by
  rw [start?_operator h, Start.operator?, if_neg (Nat.ne_of_lt op.code_lt_notCode),
    BinOp.ofCode?_code]
  rfl

theorem start?_function {id word : UInt16} (h : IsTagged word .function id.toNat) :
    start? v arity word = some (.call .function id "" (arity id)) := by
  rw [start?, h.1, h.payload]
  rfl

theorem start?_builtin (hv : v.Unambiguous) {name : String} {c : Vocabulary.Command}
    (hc : v.command? name = some c) {word : UInt16} (h : IsTagged word .global c.opcode.toNat) :
    start? v arity word = some (.call .builtin c.opcode name c.arity) := by
  rw [start?, h.1, h.payload]
  show (match v.withOpcode? c.opcode with
    | some (name, c') => some (Start.call .builtin c.opcode name c'.arity)
    | none => some (.whole (.global c.opcode false))) = _
  rw [hv.withOpcode? hc]

theorem start?_global (hv : v.Unambiguous) {slot word : UInt16} {relative : Bool}
    (hslot : relative = true ∨ v.HasSlot slot ∨ ¬v.HasOpcode slot)
    (h : IsTagged word (if relative then .relativeGlobal else .global) slot.toNat) :
    start? v arity word = some (.whole (.global slot relative)) := by
  rw [start?, h.1, h.payload]
  cases relative with
  | true => rfl
  | false =>
    have hnone : ¬v.HasOpcode slot := by
      rcases hslot with hfalse | hslot | hslot
      · contradiction
      · exact fun hopcode ↦ hv.opcode_not_slot hopcode hslot
      · exact hslot
    show (match v.withOpcode? slot with
      | some (name, c) => some (Start.call .builtin slot name c.arity)
      | none => some (.whole (.global slot false))) = _
    rw [Vocabulary.withOpcode?_eq_none hnone]

/-! ## What was written is read

The reader is in the middle of something when an operand starts. What has to be shown is that
behind the words of the operand it is in the same state, with the operand put into the innermost
frame. -/

/-- Reading goes on after an operand that is complete. -/
def resume (v : Vocabulary) (arity : UInt16 → Nat) (o : Operand) (frames : List Frame)
    (words : List UInt16) : Option (Operand × List UInt16) :=
  match fill o frames with
  | .done o => some (o, words)
  | .going frames => readFrom v arity frames words

theorem readFrom_whole {word : UInt16} {o : Operand} (h : start? v arity word = some (.whole o))
    (frames : List Frame) (words : List UInt16) :
    readFrom v arity frames (word :: words) = resume v arity o frames words := by
  rw [readFrom, h]
  rfl

theorem readFrom_part {word : UInt16} {f : Frame} (h : start? v arity word = some (.part f))
    (frames : List Frame) (words : List UInt16) :
    readFrom v arity frames (word :: words) = readFrom v arity (f :: frames) words := by
  rw [readFrom, h]

/-- The words read as the operand, whatever is open before them and whatever comes after. -/
def ReadsBack (v : Vocabulary) (arity : UInt16 → Nat) (words : List UInt16) (o : Operand) : Prop :=
  ∀ frames more, readFrom v arity frames (words ++ more) = resume v arity o frames more

/-- The words read as operands of a call that has some already. -/
def ReadsBackArgs (v : Vocabulary) (arity : UInt16 → Nat) (words : List UInt16)
    (os : List Operand) :
    Prop :=
  ∀ target id name done missing frames more, os.length = missing + 1 →
    readFrom v arity (.call target id name done missing :: frames) (words ++ more)
      = resume v arity (.call target id name (done.reverse ++ os)) frames more

theorem readsBack_word {word : UInt16} {o : Operand} (h : start? v arity word = some (.whole o)) :
    ReadsBack v arity [word] o :=
  fun frames more ↦ readFrom_whole h frames more

/-- A call is read if its operands are. -/
theorem readsBack_call {word : UInt16} {words : List UInt16} {target : CallTarget} {id : UInt16}
    {name : String} {os : List Operand}
    (h : start? v arity word = some (.call target id name os.length))
    (hwords : os = [] → words = []) (hos : ReadsBackArgs v arity words os) :
    ReadsBack v arity (word :: words) (.call target id name os) := by
  intro frames more
  rw [List.cons_append]
  cases os with
  | nil =>
    rw [hwords rfl]
    exact readFrom_whole h frames more
  | cons o os =>
    rw [readFrom_part h]
    exact hos target id name [] os.length frames more rfl

/-- The operands of a call are read one after the other. -/
theorem readsBackArgs_cons {words more : List UInt16} {o : Operand} {os : List Operand}
    (ho : ReadsBack v arity words o) (hmore : os = [] → more = [])
    (hos : ReadsBackArgs v arity more os) : ReadsBackArgs v arity (words ++ more) (o :: os) := by
  intro target id name done missing frames rest hlength
  rw [List.append_assoc, ho, resume]
  cases os with
  | nil =>
    -- the last operand completes the call
    obtain rfl : missing = 0 := by simpa using hlength.symm
    rw [hmore rfl, fill, List.reverse_cons]
    rfl
  | cons o' os =>
    obtain ⟨n, rfl⟩ : ∃ n, missing = n + 1 := ⟨os.length, by simpa using hlength.symm⟩
    rw [fill]
    show readFrom v arity (.call target id name (o :: done) n :: frames) (more ++ rest) = _
    rw [hos target id name (o :: done) n frames rest (by simpa using hlength), List.reverse_cons,
      List.append_assoc]
    rfl

theorem readsBackArgs_nil : ReadsBackArgs v arity [] [] :=
  fun _ _ _ _ _ _ _ hlength ↦ nomatch hlength

theorem length_unnamedOperands (os : List Operand) : (unnamedOperands os).length = os.length := by
  induction os with
  | nil => rfl
  | cons o os ih => rw [unnamedOperands, List.length_cons, List.length_cons, ih]

mutual

/-- The words of an operand that can be read back are read as that operand. -/
theorem readsBack_of_spelledBy (hv : v.Unambiguous) : ∀ {o : Operand} {words : List UInt16},
    o.Regular v arity → SpelledBy o words → ReadsBack v arity words o.unnamed
  | .number _, _, _, ⟨word, rfl, h⟩ => readsBack_word (by rw [start?, h.1, h.payload]; rfl)
  | .text _, _, _, ⟨word, rfl, h⟩ => readsBack_word (by rw [start?, h.1, h.payload]; rfl)
  | .var _, _, _, ⟨word, rfl, h⟩ => readsBack_word (by rw [start?, h.1, h.payload]; rfl)
  | .global _ _, _, ho, ⟨word, rfl, h⟩ => readsBack_word (start?_global hv ho h)
  | .call .function id name args, _, ⟨hlength, hargs⟩, ⟨word, more, rfl, hword, h⟩ => by
    obtain ⟨hnil, hread⟩ := readsBackArgs_of_allSpelledBy hv hargs h
    refine readsBack_call ?_ hnil hread
    rw [start?_function hword, length_unnamedOperands, hlength]
  | .call .builtin id name args, _, ⟨⟨c, hc, hid, _, hlength⟩, hargs⟩,
      ⟨word, more, rfl, hword, h⟩ => by
    subst hid
    obtain ⟨hnil, hread⟩ := readsBackArgs_of_allSpelledBy hv hargs h
    refine readsBack_call ?_ hnil hread
    rw [start?_builtin hv hc hword, length_unnamedOperands, hlength]
  | .not inner, _, ho, ⟨word, more, rfl, hword, h⟩ => by
    have hread := readsBack_of_spelledBy hv (show inner.Regular v arity from ho) h
    intro frames rest
    rw [List.cons_append, readFrom_part (start?_not hword), hread]
    rfl
  | .binary op left right, _, ⟨hl, hr⟩, ⟨word, first, second, rfl, hword, hfirst, hsecond⟩ => by
    have hread := readsBack_of_spelledBy hv hl hfirst
    have hread' := readsBack_of_spelledBy hv hr hsecond
    intro frames rest
    rw [List.cons_append, readFrom_part (start?_binary hword), List.append_assoc, hread]
    -- the left operand turns the frame into one that waits for the right one
    show readFrom v arity (.right op left.unnamed :: frames) (second ++ rest) = _
    rw [hread']
    rfl

theorem readsBackArgs_of_allSpelledBy (hv : v.Unambiguous) : ∀ {os : List Operand}
    {words : List UInt16}, operandsRegular v arity os → AllSpelledBy os words →
      (unnamedOperands os = [] → words = []) ∧ ReadsBackArgs v arity words (unnamedOperands os)
  | [], _, _, rfl => ⟨fun _ ↦ rfl, readsBackArgs_nil⟩
  | _ :: _, _, ⟨ho, hos⟩, ⟨_, _, rfl, hfirst, hsecond⟩ => by
    obtain ⟨hnil, hread⟩ := readsBackArgs_of_allSpelledBy hv hos hsecond
    exact ⟨nofun, readsBackArgs_cons (readsBack_of_spelledBy hv ho hfirst) hnil hread⟩

end

/-! ## What is written -/

/-- A word that is an operand by itself. -/
private theorem adds_word {before after : Array UInt16} {x : Except ImageError UInt16}
    (h : (do Except.ok (before.push (← x))) = .ok after) :
    ∃ word, x = .ok word ∧ after.toList = before.toList ++ [word] := by
  obtain ⟨word, hword, h₁⟩ := exceptBind_eq_ok.1 h
  cases h₁
  exact ⟨word, hword, Array.toList_push⟩

mutual

/-- What is written for an operand are its words, behind those that were there. -/
theorem writeOperand_spells : ∀ {o : Operand} {before after : Array UInt16},
    writeOperand before o = .ok after →
      ∃ words, after.toList = before.toList ++ words ∧ SpelledBy o words
  | .number _, _, _, h | .text _, _, _, h | .var _, _, _, h | .global _ _, _, _, h => by
    rw [writeOperand] at h
    obtain ⟨word, hword, hafter⟩ := adds_word h
    exact ⟨[word], hafter, word, rfl, isTagged_of_tagged hword⟩
  | .raw value, _, _, h => by
    rw [writeOperand] at h
    cases h
    exact ⟨[value], Array.toList_push, rfl⟩
  | .call _ _ _ args, before, after, h => by
    rw [writeOperand] at h
    obtain ⟨word, hword, h₁⟩ := exceptBind_eq_ok.1 h
    obtain ⟨words, hwords, hargs⟩ := writeOperands_spell h₁
    exact ⟨word :: words, by simp [hwords], word, words, rfl, startsCall_of_callWord hword, hargs⟩
  | .not inner, before, after, h => by
    rw [writeOperand] at h
    obtain ⟨word, hword, h₁⟩ := exceptBind_eq_ok.1 h
    obtain ⟨words, hwords, hinner⟩ := writeOperand_spells h₁
    exact ⟨word :: words, by simp [hwords], word, words, rfl, isTagged_of_tagged hword, hinner⟩
  | .binary op left right, before, after, h => by
    rw [writeOperand] at h
    obtain ⟨word, hword, h₁⟩ := exceptBind_eq_ok.1 h
    obtain ⟨mid, hleft, h₂⟩ := exceptBind_eq_ok.1 h₁
    obtain ⟨first, hfirst, hleft⟩ := writeOperand_spells hleft
    obtain ⟨second, hsecond, hright⟩ := writeOperand_spells h₂
    exact ⟨word :: (first ++ second), by simp [hsecond, hfirst], word, first, second, rfl,
      isTagged_of_tagged hword, hleft, hright⟩

theorem writeOperands_spell : ∀ {os : List Operand} {before after : Array UInt16},
    writeOperands before os = .ok after →
      ∃ words, after.toList = before.toList ++ words ∧ AllSpelledBy os words
  | [], before, after, h => by
    rw [writeOperands] at h
    cases h
    exact ⟨[], by simp, rfl⟩
  | o :: os, before, after, h => by
    rw [writeOperands] at h
    obtain ⟨mid, hfirst, h₁⟩ := exceptBind_eq_ok.1 h
    obtain ⟨first, hfirst, ho⟩ := writeOperand_spells hfirst
    obtain ⟨second, hsecond, hos⟩ := writeOperands_spell h₁
    exact ⟨first ++ second, by simp [hsecond, hfirst], first, second, rfl, ho, hos⟩

end

/-- What is written for instructions are their words. -/
theorem writeInstructions_spell {is : List Instruction} {before after : Array UInt16}
    (h : writeInstructions v before is = .ok after) :
    ∃ words, after.toList = before.toList ++ words ∧ CodeSpelledBy v is words := by
  induction is generalizing before with
  | nil =>
    rw [writeInstructions] at h
    cases h
    exact ⟨[], by simp, rfl⟩
  | cons i is ih =>
    rw [writeInstructions] at h
    split at h
    next => contradiction
    next c hc =>
      obtain ⟨mid, hargs, h₁⟩ := exceptBind_eq_ok.1 h
      obtain ⟨first, hfirst, hargs⟩ := writeOperands_spell hargs
      obtain ⟨second, hsecond, hrest⟩ := ih h₁
      exact ⟨c.opcode :: (first ++ second), by simp [hsecond, hfirst], c, first, second, hc, rfl,
        hargs, hrest⟩

end

/-- The words that are written for an operand, with any words after them, are read as the operand
without the names of functions, and the words after them are left. -/
theorem readOperand_written {v : Vocabulary} (hv : v.Unambiguous) (arity : UInt16 → Nat)
    {o : Operand} (ho : o.Regular v arity) {before after : Array UInt16}
    (h : writeOperand before o = .ok after) :
    ∃ words, after.toList = before.toList ++ words ∧
      ∀ more, readOperand v arity (words ++ more) = some (o.unnamed, more) := by
  obtain ⟨words, hwords, hspelled⟩ := writeOperand_spells h
  exact ⟨words, hwords, fun more ↦ readsBack_of_spelledBy hv ho hspelled [] more⟩

/-- Two commands and a global, with an operand that has all kinds of nesting: `f(1, !Speed)` plus
`Random(Frame(), x)`. -/
theorem readOperand_written_sample :
    let v : Vocabulary := ⟨.ofList [("Random", ⟨"Random", 3, ["low", "high"]⟩),
      ("Frame", ⟨"Frame", 4, []⟩)], .ofList [("Speed", ⟨"Speed", 9⟩)]⟩
    let o : Operand := .binary .add
      (.call .function 7 "f" [.number 1, .not (.global 9 false)])
      (.call .builtin 3 "Random" [.call .builtin 4 "Frame" [], .var 2])
    v.Unambiguous ∧ o.Regular v (fun _ ↦ 2) ∧
      writeOperand #[5] o = .ok #[5, 110, 58, 8, 150, 76, 28, 36, 19] ∧
      ∀ more, readOperand v (fun _ ↦ 2) ([110, 58, 8, 150, 76, 28, 36, 19] ++ more)
        = some (o.unnamed, more) := by
  intro v o
  have hv : v.Unambiguous := by decide +kernel
  have hrandom : v.command? "Random" = some ⟨"Random", 3, ["low", "high"]⟩ := by decide +kernel
  have hframe : v.command? "Frame" = some ⟨"Frame", 4, []⟩ := by decide +kernel
  have hspeed : v.HasSlot 9 := ⟨"Speed", ⟨"Speed", 9⟩, by decide +kernel, rfl⟩
  have ho : o.Regular v (fun _ ↦ 2) :=
    ⟨⟨rfl, trivial, .inr (.inl hspeed), trivial⟩, ⟨_, hrandom, rfl, by decide, rfl⟩,
      ⟨⟨_, hframe, rfl, by decide, rfl⟩, trivial⟩, trivial, trivial⟩
  have hwrite : writeOperand #[5] o = .ok #[5, 110, 58, 8, 150, 76, 28, 36, 19] := by rfl
  obtain ⟨words, hwords, hread⟩ := readOperand_written hv (fun _ ↦ 2) ho hwrite
  cases hwords
  exact ⟨hv, ho, hwrite, hread⟩

end Image

end CharacterScript
