import CharacterScript.Proofs.Tokenization

/-!
# The bytes of a text

Offsets count bytes, and some searches go over the bytes of a text, while a text here is a list of
characters. The two views are close: a character of ASCII is one byte, its own number, and every
byte of any other character is above all of ASCII (`encodeChar_ascii`, `le_of_mem_encodeChar`). So
what is asked about bytes of ASCII is answered by the characters, wherever the characters in between
begin and end.

## What is used of the encoding

Only the first byte of a character and the size of the others matter here: below 128 there is one
byte, above there are several and none of them is below 128. So a byte of ASCII in the encoding of
a text is a character of the text, at the corresponding place.
-/

namespace CharacterScript

/-- The bytes of some characters in UTF-8. -/
def utf8 (cs : List Char) : List UInt8 :=
  cs.flatMap String.utf8EncodeChar

theorem toList_toUTF8 (text : String) : text.toUTF8.data.toList = utf8 text.toList := by
  rw [String.toUTF8_eq_toByteArray, ← String.utf8Encode_toList, List.utf8Encode,
    List.toList_data_toByteArray, utf8]

theorem utf8_cons (c : Char) (cs : List Char) :
    utf8 (c :: cs) = String.utf8EncodeChar c ++ utf8 cs :=
  List.flatMap_cons

theorem utf8_append (front back : List Char) : utf8 (front ++ back) = utf8 front ++ utf8 back :=
  List.flatMap_append

/-! ## One character -/

variable {c : Char}

theorem encodeChar_ascii (h : c.toNat < 128) : String.utf8EncodeChar c = [UInt8.ofNat c.toNat] := by
  have hle : c.val.toNat ≤ 0x7f := Nat.le_of_lt_succ h
  rw [String.utf8EncodeChar]
  exact if_pos hle

/-- The bytes of any other character are outside of ASCII. -/
theorem le_of_mem_encodeChar (h : 128 ≤ c.toNat) {b : UInt8} (hb : b ∈ String.utf8EncodeChar c) :
    128 ≤ b.toNat := by
  have hlarge : ¬c.val.toNat ≤ 0x7f := Nat.not_le.2 h
  have hbound := c.val.toNat_lt
  rw [String.utf8EncodeChar] at hb
  rw [if_neg hlarge] at hb
  -- two, three or four bytes: a lead byte from 0xc0 on, the others from 0x80 on
  split at hb
  · simp only [List.mem_cons, List.not_mem_nil, or_false] at hb
    rcases hb with rfl | rfl <;> rw [UInt8.toNat_ofNat'] <;> omega
  · split at hb
    · simp only [List.mem_cons, List.not_mem_nil, or_false] at hb
      rcases hb with rfl | rfl | rfl <;> rw [UInt8.toNat_ofNat'] <;> omega
    · simp only [List.mem_cons, List.not_mem_nil, or_false] at hb
      rcases hb with rfl | rfl | rfl | rfl <;> rw [UInt8.toNat_ofNat'] <;> omega

/-- A byte of ASCII is a character of its own. -/
theorem mem_encodeChar_iff {b : UInt8} (hb : b.toNat < 128) :
    b ∈ String.utf8EncodeChar c ↔ c.toNat = b.toNat := by
  by_cases hc : c.toNat < 128
  · rw [encodeChar_ascii hc, List.mem_singleton, ← UInt8.toNat_inj, UInt8.toNat_ofNat',
      Nat.mod_eq_of_lt (by omega), eq_comm]
  · refine iff_of_false (fun h ↦ ?_) (by omega)
    have hlarge := le_of_mem_encodeChar (Nat.not_lt.1 hc) h
    omega

end CharacterScript
