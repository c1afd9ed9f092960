import ChainCodec.Radix

/-! # Binary64 numbers

    Non-negative finite numbers of the 64-bit binary format, as a mantissa of
    at most 53 bits and a power of two.  Rounding goes to the nearest such
    number, and to the even mantissa when two are equally near; it works on
    exact fractions of naturals.

    `shortest` finds the text-independent part of printing: the fewest decimal
    digits that still round to the number, of those the nearest, and the even
    one of two equally near. -/

namespace ChainCodec

/-- The number `mantissa * 2 ^ exponent`. -/
structure Binary64 where
  mantissa : Nat
  exponent : Int
  deriving DecidableEq, Repr

namespace Binary64

/-- Numbers closer to zero than `2 ^ 52 * 2 ^ leastExponent` have fewer bits. -/
def leastExponent : Int := -1074

def greatestExponent : Int := 971

def zero : Binary64 := ⟨0, leastExponent⟩

/-- `n * 2 ^ e / (d * 2 ^ 0)` as a fraction of naturals. -/
def scale (n d : Nat) (e : Int) : Nat × Nat :=
  if 0 ≤ e then (n <<< e.toNat, d) else (n, d <<< (-e).toNat)

/-- The natural nearest to `n / d`, the even one of two equally near. -/
def nearest (n d : Nat) : Nat :=
  let q := n / d
  let r := n % d
  if 2 * r < d ∨ (2 * r = d ∧ q % 2 = 0) then q else q + 1

/-- The exponent at which `n / d` has a mantissa of 53 bits, or the least. -/
def exponentOf (n d : Nat) : Int :=
  let guess : Int := (n.log2 : Int) - (d.log2 : Int)
  let (a, b) := scale n d (-guess)
  let top := if a < b then guess - 1 else guess
  max (top - 52) leastExponent

/-- The number nearest to `n / d`; none if that is past the greatest. -/
def round? (n d : Nat) : Option Binary64 :=
  if n = 0 then some zero
  else
    let e := exponentOf n d
    let (a, b) := scale n d (-e)
    let m := nearest a b
    let (m, e) := if m = 1 <<< 53 then (1 <<< 52, e + 1) else (m, e)
    if e ≤ greatestExponent then some ⟨m, e⟩ else none

/-- The number as a fraction. -/
def fraction (x : Binary64) : Nat × Nat := scale x.mantissa 1 x.exponent

def mul? (x y : Binary64) : Option Binary64 :=
  let (a, b) := x.fraction
  let (c, d) := y.fraction
  round? (a * c) (b * d)

def div? (x y : Binary64) : Option Binary64 :=
  let (a, b) := x.fraction
  let (c, d) := y.fraction
  round? (a * d) (b * c)

/-- The value, if it is a natural. -/
def toNat? (x : Binary64) : Option Nat :=
  let (a, b) := x.fraction
  if a % b = 0 then some (a / b) else none

/-! ## Shortest decimal digits -/

/-- `n / d` in steps of `10 ^ e`. -/
def decimalScale (n d : Nat) (e : Int) : Nat × Nat :=
  if 0 ≤ e then (n, d * Nat.pow 10 e.toNat) else (n * Nat.pow 10 (-e).toNat, d)

/-- Whether the fraction `n / d` rounds to `x`. -/
def roundsTo (x : Binary64) (n d : Nat) : Bool := round? n d == some x

/-- The place of the leading decimal digit of `n / d`, looked for from `e` down. -/
def leadingPlace (n d : Nat) : (fuel : Nat) → (e : Int) → Int
  | 0, e => e
  | fuel + 1, e =>
      let (a, b) := decimalScale n d e
      if b ≤ a then e else leadingPlace n d fuel (e - 1)

/-- Of the two multiples of `10 ^ place` around `n / d`, the nearer one that
    rounds to `x`, if any does; of two equally near, the even one comes first. -/
def candidate? (x : Binary64) (n d : Nat) (place : Int) : Option Nat :=
  let (a, b) := decimalScale n d place
  let low := a / b
  let order := if nearest a b = low then [low, low + 1] else [low + 1, low]
  order.find? fun k =>
    let (c, e) := decimalScale k 1 (-place)
    roundsTo x c e

/-- Tries one digit more, from `place` down, until the digits suffice. -/
def refine (x : Binary64) (n d : Nat) : (fuel : Nat) → (place : Int) → Nat × Int
  | 0, place => let (a, b) := decimalScale n d place; (a / b, place)
  | fuel + 1, place =>
      match candidate? x n d place with
      | some k => (k, place)
      | none => refine x n d fuel (place - 1)

/-- Digits (highest first, without zeros at the end) and the place of the
    leading one, for a number that is not zero.  Seventeen digits always
    suffice. -/
def shortest (x : Binary64) : List Nat × Int :=
  let (n, d) := x.fraction
  let lead := leadingPlace n d 640 309
  let (k, place) := refine x n d 17 lead
  let low := Radix.lowDigits 10 k
  let digits := (low.dropWhile (· == 0)).reverse
  (digits, place + low.length - 1)

end Binary64

end ChainCodec
