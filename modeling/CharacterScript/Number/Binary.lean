/-!
# Exact binary fractions

Every finite floating-point number is `± m · 2 ^ q` with whole `m` and `q`. This module takes a
`Float` apart into that form, and rounds a number in that form into a binary format: to the
nearest number of the format, a half to the even neighbour. Both are arithmetic on whole numbers,
so what they compute can be followed digit by digit.

The two uses are narrowing a number to single precision, which is how the number pool of a scope
stores it, and the remainder of a division, which is exact and has the sign of the dividend.

## Rounding

`Format.round` first cuts the significand down to the bits the format has, or to those above its
least exponent if that comes first, and rounds what is left by `roundShift`. Rounding up may carry
into one bit more, which is a number of the next exponent. What is larger than all numbers of the
format becomes infinite.

Neither infinities nor what is not a number are a `Binary`. They are told apart when the number is
taken apart (`Binary.Value`), so that the arithmetic here never meets them.
-/

namespace CharacterScript

/-- The number `m · 2 ^ q`, negated if `negative` is set. -/
structure Binary where
  /-- Whether the number is negated. A zero may be as well. -/
  negative : Bool
  /-- The significand, with whatever bits it has. -/
  m : Nat
  /-- The power of two it is taken times. -/
  q : Int

/-- What the bits of a floating-point number denote. -/
inductive Binary.Value where
  | finite (value : Binary)
  | infinite (negative : Bool)
  | undefined

namespace Binary

/-- Takes a double-precision number apart. Subnormal numbers share the exponent of the least
normal ones and lack the leading bit. -/
def ofFloat (x : Float) : Value :=
  let bits := x.toBits.toNat
  let negative := decide (Nat.pow 2 63 ≤ bits)
  let exponent : Nat := bits / Nat.pow 2 52 % Nat.pow 2 11
  let fraction : Nat := bits % Nat.pow 2 52
  if exponent = 2047 then
    if fraction = 0 then .infinite negative else .undefined
  else if exponent = 0 then .finite ⟨negative, fraction, -1074⟩
  else .finite ⟨negative, Nat.pow 2 52 + fraction, (exponent : Int) - 1075⟩

/-- The quotient `m / 2 ^ s`, rounded to the nearest whole number, a half to the even one. -/
def roundShift (m s : Nat) : Nat :=
  let quotient := m / Nat.pow 2 s
  let twice := 2 * (m % Nat.pow 2 s)
  if twice < Nat.pow 2 s ∨ (twice = Nat.pow 2 s ∧ quotient % 2 = 0) then quotient else quotient + 1

/-- A binary interchange format: `precision` counts the bits of a significand with its leading one,
`least` is the exponent of the smallest positive number, `exponentBits` the width of the exponent
field. -/
structure Format where
  /-- The bits of a significand, its leading one included. -/
  precision : Nat
  /-- The exponent of the smallest positive number. -/
  least : Int
  /-- The width of the exponent field. -/
  exponentBits : Nat

def single : Format := ⟨24, -149, 8⟩

def double : Format := ⟨53, -1074, 11⟩

/-- The bits of infinity, without the sign. -/
def Format.infinity (f : Format) : Nat :=
  (Nat.pow 2 f.exponentBits - 1) * Nat.pow 2 (f.precision - 1)

/-- The bits, without the sign, of the number of the format nearest to `m · 2 ^ q`. The last place
of the result is `2 ^ u`. Counting `m` in units of it and adding `u - least` times the leading bit
writes exponent and fraction at once: a significand that rounds up to the next power of two carries
into the exponent, as it should, and what is too large ends at infinity. -/
def Format.magnitude (f : Format) (m : Nat) (q : Int) : Nat :=
  if m = 0 then 0
  else
    let u := max (q + Nat.log2 m + 1 - f.precision) f.least
    let units := if u ≤ q then m * Nat.pow 2 (q - u).toNat else roundShift m (u - q).toNat
    min ((u - f.least).toNat * Nat.pow 2 (f.precision - 1) + units) f.infinity

/-- The sign bit of the format. -/
def Format.signBit (f : Format) : Nat :=
  Nat.pow 2 (f.precision - 1 + f.exponentBits)

/-- The bits of the number of the format nearest to `x`. -/
def Format.round (f : Format) (x : Binary) : Nat :=
  (if x.negative then f.signBit else 0) + f.magnitude x.m x.q

end Binary

/-- The single-precision number nearest to `x`, a half to the even neighbour. -/
def narrow (x : Float) : Float32 :=
  match Binary.ofFloat x with
  | .finite b => Float32.ofBits (UInt32.ofNat (Binary.single.round b))
  | .infinite negative =>
    Float32.ofBits (UInt32.ofNat
      ((if negative then Binary.single.signBit else 0) + Binary.single.infinity))
  | .undefined => 0.0 / 0.0

/-- The remainder of `x` by `y` when the quotient is cut off towards zero. It is exact and has the
sign of `x`; dividing by zero, or dividing infinity, gives no number. -/
def remainder (x y : Float) : Float :=
  match Binary.ofFloat x, Binary.ofFloat y with
  | .finite a, .finite b =>
    if b.m = 0 then 0.0 / 0.0
    else
      let q := min a.q b.q
      let m := a.m * Nat.pow 2 (a.q - q).toNat % (b.m * Nat.pow 2 (b.q - q).toNat)
      Float.ofBits (UInt64.ofNat (Binary.double.round ⟨a.negative, m, q⟩))
  | .finite _, .infinite _ => x
  | _, _ => 0.0 / 0.0

example : (narrow 16777217.0).toBits = (16777216.0 : Float32).toBits := by decide +kernel
example : (remainder (-4.0) 2.0).toBits = (-0.0 : Float).toBits := by decide +kernel

end CharacterScript
