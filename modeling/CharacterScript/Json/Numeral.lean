import CharacterScript.Json.Fault

/-!
# Numbers in a JSON text

A number without fraction and exponent is a whole number as long as it fits into 64 bits, with its
sign or without one. All others are floating-point numbers: the leading digits that fit into 64
bits, scaled by one multiplication with, or division by, a power of ten. That is not always the
nearest number to what is written, but the result is only ever shown in a message.

## Signs

A minus sign is read before, and handed over.

## Why not the nearest

Rounding to the nearest needs numbers of any size, and nothing here depends on the last digit: no
setting is a floating-point number, so one that is found is always refused. One multiplication is
what a reader that is in a hurry does.
-/

namespace CharacterScript
namespace Json

/-- The largest number of 64 bits. -/
def maxSignificand : Nat := 0xffffffffffffffff

/-- The largest exponent that can be written. -/
def maxExponent : Nat := 0x7fffffff

/-- Puts digits behind a number as long as it does not exceed a limit. Those left over come
second. -/
def absorb (limit n : Nat) : List Char → Nat × List Char
  | [] => (n, [])
  | d :: ds =>
    let next := 10 * n + (d.toNat - '0'.toNat)
    if next ≤ limit then absorb limit next ds else (n, d :: ds)

/-- The digits ahead and what follows them. -/
def spanDigits (cs : List Char) : List Char × List Char :=
  (cs.takeWhile Char.isDigit, cs.dropWhile Char.isDigit)

/-- Whether a number starts with a zero that should not be there. -/
def hasLeadingZero (cs : List Char) : Bool :=
  cs.head? == some '0' && (cs.drop 1).head?.any Char.isDigit

/-! ## Scaling

A power of ten above the largest that is exact in the table would be infinite. A number so large
is refused, unless its digits are all zero; one so small is divided in two steps, and may come to
zero. -/

/-- The largest power of ten that is a floating-point number. -/
def maxPower : Nat := 308

def powerOfTen (n : Nat) : Float :=
  Float.ofScientific 1 false n

/-- Scales by a power of ten, in steps of the largest there is. There is no answer if the result
would be infinite. Every number of 64 bits is down to zero after two steps. -/
def scale : Nat → Float → Int → Option Float
  | 0, x, _ => some x
  | steps + 1, x, e =>
    if e.natAbs ≤ maxPower then
      if e < 0 then some (x / powerOfTen e.natAbs)
      else
        let y := x * powerOfTen e.natAbs
        if y.isInf then none else some y
    else if x == 0.0 then some x
    else if 0 ≤ e then none
    else scale steps (x / powerOfTen maxPower) (e + maxPower)

/-- A floating-point number, with what follows it. -/
def float (negative : Bool) (x : Float) (rest : List Char) : Found × List Char :=
  (.float (if negative then -x else x), rest)

/-- The number `n · 10 ^ e`. -/
def scaled (negative : Bool) (n : Nat) (e : Int) (rest : List Char) :
    Except Fault (Found × List Char) :=
  match scale 4 (UInt64.ofNat n).toFloat e with
  | some x => .ok (float negative x rest)
  | none => Fault.before .numberRange rest

/-! ## Parts of a number -/

/-- What follows the mark of an exponent. An exponent that cannot be held is given up on at the
digit that is too much, unless the number is zero or close to it anyway. -/
def exponent (negative : Bool) (n : Nat) (e : Int) (cs : List Char) :
    Except Fault (Found × List Char) :=
  let (down, cs) := match cs with
    | '+' :: cs => (false, cs)
    | '-' :: cs => (true, cs)
    | cs => (false, cs)
  let (ds, rest) := spanDigits cs
  if cs.isEmpty then Fault.before .endInValue cs
  else if ds.isEmpty then Fault.on .number cs
  else
    match absorb maxExponent 0 ds with
    | (x, []) =>
      let sum := if down then e - x else e + x
      scaled negative n (max (-maxExponent - 1) (min sum maxExponent)) rest
    | (_, _ :: surplus) =>
      if n ≠ 0 && !down then Fault.before .numberRange (surplus ++ rest)
      else .ok (float negative 0.0 rest)

/-- What follows the fraction. -/
def exponentOrEnd (negative : Bool) (n : Nat) (e : Int) : List Char →
    Except Fault (Found × List Char)
  | 'e' :: cs => exponent negative n e cs
  | 'E' :: cs => exponent negative n e cs
  | rest => scaled negative n e rest

/-- What follows the point. -/
def fraction (negative : Bool) (n : Nat) (e : Int) (cs : List Char) :
    Except Fault (Found × List Char) :=
  let (ds, rest) := spanDigits cs
  if cs.isEmpty then Fault.before .endInValue cs
  else if ds.isEmpty then Fault.on .number cs
  else
    let (n, surplus) := absorb maxSignificand n ds
    exponentOrEnd negative n (e - (ds.length - surplus.length : Nat)) rest

/-- A whole number. With a minus sign it is one only down to the least number of 64 bits, and not
zero. -/
def whole (negative : Bool) (n : Nat) (rest : List Char) : Found × List Char :=
  if !negative then (.integer n, rest)
  else if 0 < n && n ≤ 0x8000000000000000 then (.integer (-n), rest)
  else float true (UInt64.ofNat n).toFloat rest

/-- A number after its sign. It has no zeros in front. -/
def number (negative : Bool) (cs : List Char) : Except Fault (Found × List Char) :=
  let (ds, rest) := spanDigits cs
  if cs.isEmpty then Fault.before .endInValue cs
  else if ds.isEmpty then Fault.on .number cs
  else if hasLeadingZero cs then Fault.on .number (cs.drop 1)
  else
    let (n, surplus) := absorb maxSignificand 0 ds
    match rest with
    | '.' :: rest => fraction negative n surplus.length rest
    | 'e' :: rest => exponent negative n surplus.length rest
    | 'E' :: rest => exponent negative n surplus.length rest
    | rest =>
      if surplus.isEmpty then .ok (whole negative n rest) else scaled negative n surplus.length rest

/-! ## Passing over numbers

A number nobody wants has to have the form of one and nothing else: it may have any number of
digits and any exponent. -/

/-- At least one digit. -/
def skipDigits (cs : List Char) : Except Fault (List Char) :=
  let (ds, rest) := spanDigits cs
  if ds.isEmpty then Fault.on .number cs else .ok rest

/-- What follows the mark of an exponent. -/
def skipExponent : List Char → Except Fault (List Char)
  | '+' :: cs => skipDigits cs
  | '-' :: cs => skipDigits cs
  | cs => skipDigits cs

/-- What may follow the whole part of a number, or its fraction. -/
def skipExponent? : List Char → Except Fault (List Char)
  | 'e' :: cs => skipExponent cs
  | 'E' :: cs => skipExponent cs
  | cs => .ok cs

/-- A number after its sign, whatever its size. -/
def skipNumber (cs : List Char) : Except Fault (List Char) := do
  let rest ← skipDigits cs
  if hasLeadingZero cs then Fault.on .number (cs.drop 1)
  else
    match rest with
    | '.' :: rest => do skipExponent? (← skipDigits rest)
    | rest => skipExponent? rest

end Json

end CharacterScript
