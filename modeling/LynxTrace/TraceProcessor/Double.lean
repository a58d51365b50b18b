import Mathlib.Algebra.Order.Ring.Int

/-!
# TraceProcessor.Double — `double` as an IEEE 754 binary64 number

A number is its 64 bits.  What the code does with doubles (comparisons, conversions from and to integers, sums) is
computed exactly on sign, significand and exponent and rounded to nearest, ties to even.
-/

namespace LynxTrace.TraceProcessor

/-- A `double` by its bits. -/
structure Double where
  bits : UInt64
  deriving DecidableEq, Repr

namespace Double

/-- Equal to 0: the sign bit does not count. -/
def isZero (x : Double) : Bool := x.bits = 0 || x.bits = 0x8000000000000000

def zero : Double := ⟨0⟩

/-- The same number, or the same NaN. -/
def Same (x y : Double) : Prop := x = y ∨ (x.isZero ∧ y.isZero)

instance (x y : Double) : Decidable (x.Same y) := inferInstanceAs (Decidable (_ ∨ _))

/-! ### Order -/

def negative (x : Double) : Bool := 2 ^ 63 ≤ x.bits.toNat

/-- The bits below the sign bit; they order the numbers of one sign. -/
def magnitude (x : Double) : ℕ := x.bits.toNat % 2 ^ 63

/-- The magnitude of an infinity; a NaN has a larger one. -/
def kInfinity : ℕ := 0x7FF0000000000000

def isNaN (x : Double) : Bool := kInfinity < x.magnitude

def isInf (x : Double) : Bool := x.magnitude = kInfinity

/-- The place of a number among all numbers; both zeros have place 0. -/
def key (x : Double) : ℤ := if x.negative then -x.magnitude else x.magnitude

/-- `x == y`. -/
def eq (x y : Double) : Bool := !x.isNaN && !y.isNaN && x.key = y.key

/-- `x < y`. -/
def lt (x y : Double) : Bool := !x.isNaN && !y.isNaN && x.key < y.key

/-- `x <= y`. -/
def le (x y : Double) : Bool := !x.isNaN && !y.isNaN && x.key ≤ y.key

/-! ### Conversions: a finite number is `significand * 2 ^ exponent` -/

def significand (x : Double) : ℤ :=
  let m : ℕ := if x.magnitude < 2 ^ 52 then x.magnitude else x.magnitude % 2 ^ 52 + 2 ^ 52
  if x.negative then -m else m

def exponent (x : Double) : ℤ := (max (x.magnitude / 2 ^ 52) 1 : ℕ) - 1075

/-- `std::floor`, as an integer. -/
def floor (x : Double) : ℤ :=
  if 0 ≤ x.exponent then x.significand * 2 ^ x.exponent.toNat else x.significand / 2 ^ (-x.exponent).toNat

/-- `std::ceil`, as an integer. -/
def ceil (x : Double) : ℤ :=
  if 0 ≤ x.exponent then x.significand * 2 ^ x.exponent.toNat else -(-x.significand / 2 ^ (-x.exponent).toNat)

/-- `x == trunc(x)`, for an `x` that is not a NaN. -/
def isIntegral (x : Double) : Bool := x.floor = x.ceil

/-- `static_cast<int64_t>(x)`: out of range it is the smallest number, as the conversion instruction gives it. -/
def toInt64 (x : Double) : ℤ :=
  let t := if x.negative then x.ceil else x.floor
  if !x.isNaN && -2 ^ 63 ≤ t && t < 2 ^ 63 then t else -2 ^ 63

def ofMagnitude (negative : Bool) (magnitude : ℕ) : Double :=
  ⟨.ofNat (if negative then magnitude + 2 ^ 63 else magnitude)⟩

/-- The magnitude of the number nearest to `m * 2 ^ e`. -/
def round (m : ℕ) (e : ℤ) : ℕ :=
  if m = 0 then 0 else
    -- so many bits do not fit: 53 are kept, fewer below the smallest normal number
    let shift : ℤ := max ((m.log2 : ℤ) - 52) (-1074 - e)
    let scaled : ℕ :=
      if shift ≤ 0 then m * 2 ^ (-shift).toNat else
        let unit := 2 ^ shift.toNat
        let q := m / unit
        let r := m % unit
        if unit < 2 * r || (2 * r = unit && q % 2 = 1) then q + 1 else q
    min ((e + shift + 1074).toNat * 2 ^ 52 + scaled) kInfinity

/-- `static_cast<double>(i)`. -/
def ofInt (i : ℤ) : Double := ofMagnitude (i < 0) (round i.natAbs 0)

/-- `std::nextafter(x, ±infinity)`, for a finite `x`: the number one place on. -/
def nextAfter (x : Double) (up : Bool) : Double :=
  let k := if up then x.key + 1 else x.key - 1
  ofMagnitude (k < 0) k.natAbs

/-! ### Sum, minimum, maximum -/

/-- `x + y`. -/
def add (x y : Double) : Double :=
  if x.isNaN then x else if y.isNaN then y else
  if x.isInf then (if y.isInf && x.negative != y.negative then ⟨0xFFF8000000000000⟩ else x) else
  if y.isInf then y else
    let e := min x.exponent y.exponent
    let s := x.significand * 2 ^ (x.exponent - e).toNat + y.significand * 2 ^ (y.exponent - e).toNat
    if s = 0 then ofMagnitude (x.negative && y.negative) 0 else ofMagnitude (s < 0) (round s.natAbs e)

/-- `std::min`: the first argument unless the second is less. -/
def stdMin (x y : Double) : Double := if lt y x then y else x

/-- `std::max`. -/
def stdMax (x y : Double) : Double := if lt x y then y else x

end Double

end LynxTrace.TraceProcessor
