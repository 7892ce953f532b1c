import CharacterScript.Number.Binary

/-!
# The shortest decimal text of a number

A floating-point number is shown with the fewest decimal digits that read back as the same number,
and with the nearest such digits if there are several. `numberText` is positional at every size:
there is never an exponent, and a whole number has no point. `pointedText` always has one or the
other.

## The search

The search is on exact whole numbers. A number `m · 2 ^ q` is what everything in an interval around
it is rounded to; the ends belong to the interval when `m` is even. On the grid of decimals with `n`
digits only the two neighbours of the number need a look, because if any point of the grid lies in
the interval, one of those two does.

## Seventeen digits

The first grid with a point in the interval is the one with the fewest digits, and a grid of
seventeen digits is finer than the interval of any number in double precision. So the search ends
within seventeen steps, and its last branch is never taken.

A number that is nearer to two decimals of the same length than to any other takes the larger one,
and zeros at its end are taken off after the search.
-/

namespace CharacterScript
namespace Shortest

/-- A positive number `value / unit` with the interval around it that rounds to it, all in the same
unit. -/
structure Target where
  /-- The lower end of the interval, halfway to the number below. -/
  low : Nat
  /-- The number itself. -/
  value : Nat
  /-- The upper end of the interval, halfway to the number above. -/
  high : Nat
  /-- What all three are counted in: they stand for themselves divided by it. -/
  unit : Nat
  /-- Whether the ends of the interval round to the number too. -/
  closed : Bool

/-- The target of `m · 2 ^ q`. The gap below a power of two is half the gap above it, except at the
least exponent, where the gaps are equal. -/
def Target.ofBinary (m : Nat) (q : Int) : Target :=
  let below := if m = Nat.pow 2 52 ∧ -1074 < q then 1 else 2
  let up := Nat.pow 2 (q - 2).toNat
  ⟨(4 * m - below) * up, 4 * m * up, (4 * m + 2) * up, Nat.pow 2 (2 - q).toNat, m % 2 = 0⟩

/-- Whether the decimal `digits · 10 ^ p` lies in the interval. -/
def Target.contains (t : Target) (digits : Nat) (p : Int) : Bool :=
  let x := digits * Nat.pow 10 p.toNat * t.unit
  let scale := Nat.pow 10 (-p).toNat
  if t.closed then t.low * scale ≤ x && x ≤ t.high * scale
  else t.low * scale < x && x < t.high * scale

/-- The least `k ≥ 0` for which the number times `10 ^ k` is at least one, looked for among the
first `fuel` of them. -/
def Target.zerosAfterPoint (t : Target) : Nat → Nat → Nat
  | 0, k => k
  | fuel + 1, k => if t.unit ≤ t.value * Nat.pow 10 k then k else t.zerosAfterPoint fuel (k + 1)

/-- The power `k` with `10 ^ (k - 1) ≤ value < 10 ^ k`. -/
def Target.power (t : Target) : Int :=
  if t.unit ≤ t.value then ((Nat.toDigits 10 (t.value / t.unit)).length : Int)
  else 1 - (t.zerosAfterPoint 400 0 : Int)

/-- The decimal on the grid of step `10 ^ p` that lies in the interval and is nearest to the number;
of two equally near ones the larger. -/
def Target.onGrid? (t : Target) (p : Int) : Option Nat :=
  let num := t.value * Nat.pow 10 (-p).toNat
  let den := t.unit * Nat.pow 10 p.toNat
  let floor := num / den
  let upper := 2 * (num % den) ≥ den
  match t.contains floor p && decide (0 < floor), t.contains (floor + 1) p with
  | true, true => some (if upper then floor + 1 else floor)
  | true, false => some floor
  | false, true => some (floor + 1)
  | false, false => none

/-- Tries grids of `n`, `n + 1`, … digits and gives the first decimal found, as digits and a power
of ten. -/
def Target.search (t : Target) (power : Int) : Nat → Nat → Nat × Int
  | 0, n => (t.value * Nat.pow 10 (n - power).toNat / t.unit, power - n)
  | fuel + 1, n =>
    match t.onGrid? (power - n) with
    | some digits => (digits, power - n)
    | none => t.search power fuel (n + 1)

/-- Removes the trailing zeros of the digits, at most `fuel` of them. -/
def stripZeros : Nat → Nat → Int → Nat × Int
  | 0, digits, p => (digits, p)
  | fuel + 1, digits, p =>
    if digits % 10 = 0 then stripZeros fuel (digits / 10) (p + 1) else (digits, p)

/-- The shortest decimal of `m · 2 ^ q`, without trailing zeros. Seventeen digits always do. -/
def digits (m : Nat) (q : Int) : Nat × Int :=
  let t := Target.ofBinary m q
  let (d, p) := t.search t.power 17 1
  stripZeros 20 d p

/-- The decimal `d · 10 ^ p` in positional form. -/
def positional (d : Nat) (p : Int) : List Char :=
  let ds := Nat.toDigits 10 d
  if 0 ≤ p then ds ++ List.replicate p.toNat '0'
  else
    let places := (-p).toNat
    if places < ds.length then
      ds.take (ds.length - places) ++ '.' :: ds.drop (ds.length - places)
    else '0' :: '.' :: (List.replicate (places - ds.length) '0' ++ ds)

end Shortest

/-- The text of a number: the fewest digits that read back, never an exponent. -/
def numberText (x : Float) : String :=
  match Binary.ofFloat x with
  | .finite ⟨negative, m, q⟩ =>
    let magnitude := if m = 0 then ['0'] else
      let (d, p) := Shortest.digits m q
      Shortest.positional d p
    String.ofList (if negative then '-' :: magnitude else magnitude)
  | .infinite negative => if negative then "-inf" else "inf"
  | .undefined => "NaN"

namespace Shortest

/-- The decimal `d · 10 ^ p` with a point or an exponent in it always. There is an exponent if the
first digit stands for less than `10 ^ -5` or more than `10 ^ 15`. -/
def pointed (d : Nat) (p : Int) : List Char :=
  let ds := Nat.toDigits 10 d
  let first := p + ds.length - 1
  if -5 ≤ first ∧ first ≤ 15 then
    positional d p ++ (if 0 ≤ p then ['.', '0'] else [])
  else
    ds.take 1 ++ (if ds.length = 1 then [] else '.' :: ds.drop 1) ++
      ['e', if first < 0 then '-' else '+'] ++ Nat.toDigits 10 first.natAbs

end Shortest

/-- The text of a number that is to be told from a whole number by its look. -/
def pointedText (x : Float) : String :=
  match Binary.ofFloat x with
  | .finite ⟨negative, m, q⟩ =>
    let magnitude := if m = 0 then ['0', '.', '0'] else
      let (d, p) := Shortest.digits m q
      Shortest.pointed d p
    String.ofList (if negative then '-' :: magnitude else magnitude)
  | _ => numberText x

end CharacterScript
