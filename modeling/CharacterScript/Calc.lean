import CharacterScript.Number.Binary
import CharacterScript.Text.Class

/-!
# Plain arithmetic

The argument of `#calc` is evaluated when a script is compiled: decimal and hexadecimal numbers, the
operators `+ - * / %` with the usual precedence, signs and parentheses. The result must be finite.

## The steps are bounded

The reader works on the characters themselves. Like the reader of expressions it is bounded by a
count of steps, four for each character, which is never reached.

## The shape of the grammar

There are three levels, a sum of products of signed numbers, and the two upper ones have the same
form: a first operand, then operators of the level with an operand each. A level is a function for
the first operand and one for what may continue it, since the operands are put together from the
left while they are read and no tree is built.

A minus sign in front applies to what the level below gives, so it binds tighter than any
operator, and any number of signs may follow each other.

## Floating-point results

All is computed in 64-bit floating point, the way the runtime would do it, and nothing is checked
on the way: a division by zero gives an infinity and the calculation goes on. Only the value of
the whole text has to be finite.
-/

namespace CharacterScript

/-- Why a text has no value. -/
inductive CalcError where
  | unexpected (c : Char)
  | endOfInput
  | expectedClose
  | invalidHex
  | invalidNumber (literal : String)
  | notFinite
  deriving DecidableEq

/-- The first byte of a character in UTF-8, read as a character again. -/
def firstByte (c : Char) : Char :=
  if c.toNat < 0x80 then c
  else if c.toNat < 0x800 then Char.ofNat (0xc0 + c.toNat / 0x40)
  else if c.toNat < 0x10000 then Char.ofNat (0xe0 + c.toNat / 0x1000)
  else Char.ofNat (0xf0 + c.toNat / 0x40000)

/-- The wording of an error. A character outside ASCII is shown by its first byte. -/
def CalcError.message : CalcError → String
  | unexpected c => "unexpected '" ++ (firstByte c).toString ++ "'"
  | endOfInput => "unexpected end of input"
  | expectedClose => "expected ')'"
  | invalidHex => "invalid hex literal"
  | invalidNumber literal => "invalid number '" ++ literal ++ "'"
  | notFinite => "result is not a finite number"

namespace Calc

def skipBlanks (cs : List Char) : List Char :=
  cs.dropWhile isBlank

/-! ## Numbers

A number ends where its characters do, not where it stops making sense: all digits and points are
taken first, and then they have to be one number. So `1.2.3` is one bad number, not two good
ones. -/

/-- The value of the digits after `0x`, which must fit 64 bits. -/
def hexLiteral (digits : List Char) : Except CalcError Float :=
  let value := hexNumber digits
  if digits.isEmpty ∨ Nat.pow 2 64 ≤ value then .error .invalidHex else .ok (Float.ofNat value)

/-- The value of a run of digits and points. There is at most one point and at least one digit. -/
def decimalLiteral (literal : List Char) : Except CalcError Float :=
  let whole := literal.takeWhile Char.isDigit
  let fraction := (literal.drop whole.length).tail
  if fraction.all Char.isDigit && !(whole.isEmpty && fraction.isEmpty) then
    .ok (Float.ofScientific (decimalNumber (whole ++ fraction)) true fraction.length)
  else .error (.invalidNumber (String.ofList literal))

/-- A number at the front of a text that starts with a digit or a point. -/
def number (cs : List Char) : Except CalcError (Float × List Char) :=
  match cs with
  | '0' :: 'x' :: rest | '0' :: 'X' :: rest => do
    let digits := rest.takeWhile isHexDigit
    .ok (← hexLiteral digits, rest.drop digits.length)
  | cs => do
    let literal := cs.takeWhile fun c ↦ c.isDigit || c == '.'
    .ok (← decimalLiteral literal, cs.drop literal.length)

/-! ## Sums, products, signs -/

/-- The operator `c` applied to two numbers, if it is one of a product. -/
def product? (c : Char) : Option (Float → Float → Float) :=
  if c = '*' then some (· * ·)
  else if c = '/' then some (· / ·)
  else if c = '%' then some remainder
  else none

/-- The operator `c` applied to two numbers, if it is one of a sum. -/
def sum? (c : Char) : Option (Float → Float → Float) :=
  if c = '+' then some (· + ·)
  else if c = '-' then some (· - ·)
  else none

mutual

def sum : Nat → List Char → Except CalcError (Float × List Char)
  | 0, _ => .error .endOfInput
  | fuel + 1, cs => do
    let (value, cs) ← product fuel cs
    moreSum fuel value cs

/-- What continues a sum worth `value` so far. -/
def moreSum : Nat → Float → List Char → Except CalcError (Float × List Char)
  | 0, _, _ => .error .endOfInput
  | fuel + 1, value, cs =>
    match skipBlanks cs with
    | [] => .ok (value, [])
    | c :: rest =>
      match sum? c with
      | none => .ok (value, c :: rest)
      | some f => do
        let (right, cs) ← product fuel rest
        moreSum fuel (f value right) cs

def product : Nat → List Char → Except CalcError (Float × List Char)
  | 0, _ => .error .endOfInput
  | fuel + 1, cs => do
    let (value, cs) ← signed fuel cs
    moreProduct fuel value cs

/-- What continues a product worth `value` so far. -/
def moreProduct : Nat → Float → List Char → Except CalcError (Float × List Char)
  | 0, _, _ => .error .endOfInput
  | fuel + 1, value, cs =>
    match skipBlanks cs with
    | [] => .ok (value, [])
    | c :: rest =>
      match product? c with
      | none => .ok (value, c :: rest)
      | some f => do
        let (right, cs) ← signed fuel rest
        moreProduct fuel (f value right) cs

/-- A number or a sum in parentheses, with signs in front. -/
def signed : Nat → List Char → Except CalcError (Float × List Char)
  | 0, _ => .error .endOfInput
  | fuel + 1, cs =>
    match skipBlanks cs with
    | [] => .error .endOfInput
    | c :: rest =>
      if c = '-' then do
        let (value, cs) ← signed fuel rest
        .ok (-value, cs)
      else if c = '+' then signed fuel rest
      else if c = '(' then do
        let (value, cs) ← sum fuel rest
        match skipBlanks cs with
        | ')' :: cs => .ok (value, cs)
        | _ => .error .expectedClose
      else if c.isDigit || c == '.' then number (c :: rest)
      else .error (.unexpected c)

end

end Calc

/-- The value of a text of plain arithmetic. -/
def evaluate (text : String) : Except CalcError Float := do
  let cs := text.toList
  let (value, cs) ← Calc.sum (4 * cs.length + 8) cs
  match Calc.skipBlanks cs with
  | c :: _ => .error (.unexpected c)
  | [] => if value.isFinite then .ok value else .error .notFinite

example : (evaluate "2 + 3 * (4 - 1) % 5").toOption = some 6.0 := by decide +kernel

end CharacterScript
