set_option autoImplicit false

/-!
# Shortest decimals of binary fractions

A finite binary floating-point number is `significand · 2 ^ exponent`.  The reals that round to it
form an interval whose ends are half way to its neighbours, and the ends belong to it when the
significand is even, because a tie rounds to even.  `Binary.shortest` picks the decimal with the
fewest digits inside that interval, and of those the nearest to the number.

The search works on decimal grids: on the grid of `n` digits only the two neighbours of the number
have to be tried, since any grid point of the interval has one of them between itself and the
number.  All arithmetic is exact and over `Nat`.
-/

namespace MethodIL.Floating

/-- A positive decimal `digits · 10 ^ exponent`. -/
structure Decimal where
  digits : Nat
  exponent : Int
  deriving DecidableEq, Repr, Inhabited

/-- The field widths of a binary interchange format. -/
structure Format where
  exponentBits : Nat
  fractionBits : Nat
  deriving DecidableEq, Repr

/-- Eight exponent bits and twenty-three fraction bits. -/
def binary32 : Format := ⟨8, 23⟩

/-- Eleven exponent bits and fifty-two fraction bits. -/
def binary64 : Format := ⟨11, 52⟩

/-- A positive number `significand · 2 ^ exponent`.  `narrowBelow` holds where the number is the
smallest of its binade, so that its lower neighbour is half as far away as its upper one. -/
structure Binary where
  significand : Nat
  exponent : Int
  narrowBelow : Bool
  deriving DecidableEq, Repr

/-- What a bit pattern stands for. -/
inductive Value where
  | nan
  | infinite (negative : Bool)
  | zero (negative : Bool)
  | finite (negative : Bool) (magnitude : Binary)
  deriving DecidableEq, Repr

/-- Split a bit pattern into sign, exponent and fraction. -/
def Format.decode (f : Format) (bits : Nat) : Value :=
  -- the leading one of a normal number, which is not stored
  let leading := Nat.pow 2 f.fractionBits
  let exponents := Nat.pow 2 f.exponentBits
  let fraction := bits % leading
  let biased := bits / leading % exponents
  let negative := bits / (leading * exponents) % 2 == 1
  -- exponent of the last place of the subnormal numbers
  let least : Int := 2 - Nat.pow 2 (f.exponentBits - 1) - f.fractionBits
  if biased == exponents - 1 then
    if fraction == 0 then .infinite negative else .nan
  else if biased == 0 then
    if fraction == 0 then .zero negative else .finite negative ⟨fraction, least, false⟩
  else
    .finite negative
      ⟨leading + fraction, least + (biased - 1 : Nat), fraction == 0 && biased != 1⟩

namespace Binary

/-- The number and the ends of its rounding interval as multiples of `1 / denominator`, where one
step of the grid `10 ^ k` is one whole. -/
structure Scaled where
  lower : Nat
  number : Nat
  upper : Nat
  denominator : Nat
  closed : Bool

/-- Measure a number in steps of `10 ^ k`. -/
def scale (b : Binary) (k : Int) : Scaled :=
  -- quarters of the last place make both ends whole
  let quarter := b.exponent - 2
  let factor := Nat.pow 2 quarter.toNat * Nat.pow 10 (-k).toNat
  { lower := (4 * b.significand - (if b.narrowBelow then 1 else 2)) * factor
    number := 4 * b.significand * factor
    upper := (4 * b.significand + 2) * factor
    denominator := Nat.pow 2 (-quarter).toNat * Nat.pow 10 k.toNat
    closed := b.significand % 2 == 0 }

/-- The grid point `d` rounds to the number. -/
def Scaled.holds (s : Scaled) (d : Nat) : Bool :=
  let point := d * s.denominator
  if s.closed then s.lower ≤ point && point ≤ s.upper else s.lower < point && point < s.upper

/-- The nearer of the two grid points around the number that lie in its interval; a tie goes up. -/
def Scaled.nearest? (s : Scaled) : Option Nat :=
  let below := s.number / s.denominator
  let rest := s.number % s.denominator
  let fits := s.holds below
  let fitsAbove := s.holds (below + 1)
  if fitsAbove && (!fits || s.denominator ≤ 2 * rest) then some (below + 1)
  else if fits then some below
  else none

/-- The exponent of the leading decimal digit. -/
def leadingExponent (b : Binary) : Int :=
  let s := b.scale 0
  let guess : Int := (Nat.toDigits 10 s.number).length - (Nat.toDigits 10 s.denominator).length
  let t := b.scale guess
  if t.denominator ≤ t.number then guess else guess - 1

/-- The nearest hit on the grid of `n` digits. -/
def onGrid? (b : Binary) (n : Nat) : Option Decimal :=
  let k := b.leadingExponent + 1 - n
  (b.scale k).nearest?.map fun d =>
    if d == Nat.pow 10 n then ⟨1, k + n⟩ else ⟨d, k⟩

/-- The decimal of fewest digits that rounds to the number.  Seventeen digits tell any two
neighbours of `binary64` apart, so the grids up to there always hold a hit. -/
def shortest (b : Binary) : Decimal :=
  ((List.range 17).findSome? fun n => b.onGrid? (n + 1)).getD default

end Binary

end MethodIL.Floating
