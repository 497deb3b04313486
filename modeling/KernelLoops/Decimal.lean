set_option autoImplicit false

/-! # Shortest decimals

The fewest decimal digits that read back as a given floating-point number, and of those the nearest.
A number is taken apart into `m * 2 ^ q`; the reals that round to it form an interval, and for one
digit, two digits and so on the two neighbours of the number on that decimal grid are tried. -/

namespace KernelLoops.Decimal

/-- A positive decimal: the digits after a point that stands `exponent` places to the right of
    it. -/
structure Digits where
  digits : List Char
  exponent : Int
deriving DecidableEq, Repr

/-- A fraction of natural numbers. -/
structure Ratio where
  num : Nat
  den : Nat

/-- A power of ten. -/
def tens (n : Nat) : Nat := Nat.pow 10 n

namespace Ratio

/-- The fraction `m * 2 ^ q`. -/
def ofBinary (m : Nat) (q : Int) : Ratio :=
  if 0 ≤ q then ⟨m <<< q.toNat, 1⟩ else ⟨m, 1 <<< (-q).toNat⟩

/-- The fraction `c * 10 ^ e`. -/
def ofDecimal (c : Nat) (e : Int) : Ratio :=
  if 0 ≤ e then ⟨c * tens e.toNat, 1⟩ else ⟨c, tens (-e).toNat⟩

/-- Is one fraction less than another? -/
def lt (a b : Ratio) : Bool := a.num * b.den < b.num * a.den

/-- Is one fraction at most another? -/
def le (a b : Ratio) : Bool := a.num * b.den ≤ b.num * a.den

/-- The distance of two fractions. -/
def dist (a b : Ratio) : Ratio :=
  ⟨(a.num * b.den - b.num * a.den) + (b.num * a.den - a.num * b.den), a.den * b.den⟩

/-- The whole part of a fraction divided by `10 ^ e`. -/
def floorAt (a : Ratio) (e : Int) : Nat :=
  if 0 ≤ e then a.num / (a.den * tens e.toNat) else a.num * tens (-e).toNat / a.den

end Ratio

/-- The reals that round to one number, and the number itself. -/
structure Interval where
  value : Ratio
  low : Ratio
  high : Ratio
  /-- Do the ends belong to it? -/
  closed : Bool

namespace Interval

/-- Does a fraction lie in the interval? -/
def contains (i : Interval) (r : Ratio) : Bool :=
  if i.closed then i.low.le r && r.le i.high else i.low.lt r && r.lt i.high

/-- The interval of the double `m * 2 ^ q`. Below a power of two the spacing is half as wide. -/
def ofBinary (m : Nat) (q : Int) (powerOfTwo : Bool) : Interval where
  value := .ofBinary m q
  low := if powerOfTwo then .ofBinary (4 * m - 1) (q - 2) else .ofBinary (2 * m - 1) (q - 1)
  high := .ofBinary (2 * m + 1) (q - 1)
  closed := m % 2 = 0

/-- The neighbour with `n` digits that lies in the interval, given that the value is below
    `10 ^ point`. -/
def candidate? (i : Interval) (point : Int) (n : Nat) : Option Nat :=
  let e := point - n
  let c := i.value.floorAt e
  let below := Ratio.ofDecimal c e
  let above := Ratio.ofDecimal (c + 1) e
  match i.contains below && c ≠ 0, i.contains above with
  | true, true => some (if (i.value.dist above).lt (i.value.dist below) then c + 1 else c)
  | true, false => some c
  | false, true => some (c + 1)
  | false, false => none

/-- The first count of digits with a neighbour in the interval, among `n`, `n + 1`, …. -/
def search (i : Interval) (point : Int) : Nat → Nat → Nat × Nat
  | 0, n => (i.value.floorAt (point - n), n)
  | tries + 1, n =>
    match i.candidate? point n with
    | some c => (c, n)
    | none => i.search point tries (n + 1)

/-- The least power of ten above the value, from `p` upward. -/
def pointFrom (i : Interval) : Nat → Int → Int
  | 0, p => p
  | tries + 1, p => if i.value.lt (.ofDecimal 1 p) then p else i.pointFrom tries (p + 1)

end Interval

/-- A list without the zeros at its end. -/
def dropTrailingZeros (ds : List Char) : List Char := (ds.reverse.dropWhile (· = '0')).reverse

/-- The shortest digits of a positive finite double. -/
def shortest (x : Float) : Digits :=
  let bits := x.toBits.toNat
  let field : Nat := bits / 0x10000000000000 % 0x800
  let fraction : Nat := bits % 0x10000000000000
  let m := if field = 0 then fraction else fraction + 0x10000000000000
  let q : Int := if field = 0 then -1074 else (field : Int) - 1075
  let i := Interval.ofBinary m q (fraction = 0 && 1 < field)
  let point := i.pointFrom 700 (-330)
  let (c, n) := i.search point 17 1
  let ds := Nat.toDigits 10 c
  { digits := dropTrailingZeros ds, exponent := point - n + ds.length }

/-! ## General notation -/

/-- A number of at least two digits. -/
def twoDigits (n : Nat) : String := if n < 10 then "0" ++ toString n else toString n

/-- Digits in general notation: positional for exponents from -4 to 5, scientific otherwise. -/
def Digits.render (d : Digits) : String :=
  let exponent := d.exponent - 1
  if exponent < -4 || 6 ≤ exponent then
    let tail := if d.digits.length ≤ 1 then "" else "." ++ String.ofList (d.digits.drop 1)
    let sign := if exponent < 0 then "-" else "+"
    String.ofList (d.digits.take 1) ++ tail ++ "e" ++ sign ++ twoDigits exponent.natAbs
  else if d.exponent ≤ 0 then
    "0." ++ String.ofList (List.replicate d.exponent.natAbs '0' ++ d.digits)
  else
    let whole := d.exponent.toNat
    let front := d.digits.take whole ++ List.replicate (whole - d.digits.length) '0'
    let back := d.digits.drop whole
    String.ofList front ++ (if back.isEmpty then "" else "." ++ String.ofList back)

/-- A double in general notation with the fewest digits that read back. -/
def render (x : Float) : String :=
  if x.isNaN then "NaN"
  else
    let negative := x.toBits.toNat ≥ 0x8000000000000000
    let size := x.abs
    if size.isInf then (if negative then "-Inf" else "+Inf")
    else
      (if negative then "-" else "") ++
        (if size.toBits = 0 then "0" else (shortest size).render)

end KernelLoops.Decimal
