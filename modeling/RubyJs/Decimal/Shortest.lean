set_option autoImplicit false

/-! # The fewest digits that read back

The decimals that are read as the number `m · 2^q` fill an interval around it: half the distance to
its neighbours on each side, the ends included if `m` is even. `Shortest.digits` gives the decimal
of the fewest digits in the interval, of two that are as short the nearer, and of two that are as
near the larger.

For one digit, two digits, … the decimals with so many digits are a grid, and only the two grid
points around the number have to be tried.
-/

namespace RubyJs.Shortest

/-- Digits, the first not zero, and the place of the point: `0.d₁d₂… · 10^point`. -/
structure Digits where
  digits : List Nat
  point : Int
deriving DecidableEq, Repr

/-- The interval of a number, all over one denominator: the number is `value / unit`, and the ends
are `below` and `above` it by these parts of `unit`. -/
structure Interval where
  value : Nat
  below : Nat
  above : Nat
  unit : Nat
  closed : Bool

/-- The interval of `m · 2^q`. Below the least significand of 53 bits the neighbours are closer. -/
def Interval.of (m : Nat) (q : Int) : Interval :=
  let edge := m == Nat.pow 2 52
  let k := if edge then 4 else 2
  let (up, down) := if 0 ≤ q then (Nat.pow 2 q.toNat, 1) else (1, Nat.pow 2 (-q).toNat)
  { value := k * m * up
    below := up
    above := if edge then 2 * up else up
    unit := k * down
    closed := m % 2 == 0 }

/-- The largest `p` from `p` downwards for which `10^(p-1)` is not above `value / unit`, tried at
most `fuel` times. -/
def lowerPoint (value unit : Nat) : Nat → Int → Int
  | 0, p => p
  | fuel + 1, p =>
    let (n, d) := if 0 ≤ p - 1 then (value, unit * Nat.pow 10 (p - 1).toNat)
      else (value * Nat.pow 10 (1 - p).toNat, unit)
    if d ≤ n then p else lowerPoint value unit fuel (p - 1)

/-- The place of the point of `value / unit`: `10^(p-1) ≤ value / unit < 10^p`. -/
def pointOf (value unit : Nat) : Int :=
  let start : Int := ((Nat.toDigits 10 value).length : Int) - (Nat.toDigits 10 unit).length + 1
  lowerPoint value unit 3 start

/-- The better grid point around the number when the grid has the distance `10^e`, as a multiple of
that distance: `none` if neither is in the interval. -/
def gridPoint? (i : Interval) (e : Int) : Option Nat :=
  let (grow, step) :=
    if 0 ≤ e then (1, i.unit * Nat.pow 10 e.toNat) else (Nat.pow 10 (-e).toNat, i.unit)
  let value := i.value * grow
  let floor := value / step
  let excess := value % step
  let inside (distance reach : Nat) : Bool :=
    if i.closed then distance ≤ reach * grow else distance < reach * grow
  let down := inside excess i.below
  let up := inside (step - excess) i.above
  if down && up then some (if 2 * excess < step then floor else floor + 1)
  else if down then some floor
  else if up then some (floor + 1)
  else none

/-- The decimal `n · 10^e` as digits without zeros at the end. -/
def toDigits (n : Nat) (e : Int) : Digits :=
  let ds := (Nat.toDigits 10 n).map (fun c => c.toNat - '0'.toNat)
  { digits := (ds.reverse.dropWhile (· == 0)).reverse
    point := ds.length + e }

/-- The first grid, from `count` digits on, with a point in the interval. Seventeen digits are
always enough, so `fuel` counts from there. -/
def search (i : Interval) (point : Int) : Nat → Nat → Digits
  | 0, count => toDigits (i.value / i.unit) (point - count)
  | fuel + 1, count =>
    match gridPoint? i (point - count) with
    | some n => toDigits n (point - count)
    | none => search i point fuel (count + 1)

/-- The digits of `m · 2^q`, which is not zero. -/
def digits (m : Nat) (q : Int) : Digits :=
  let i := Interval.of m q
  search i (pointOf i.value i.unit) 18 1

end RubyJs.Shortest
