import ChainCodec.Json.Binary64
import ChainCodec.Text.Decimal

/-! # JSON

    Trees, and how the numbers in them are read and written.

    A number literal without fraction and exponent that fits 64 bits, signed or
    unsigned, is an integer.  Every other literal is a binary64 number, and
    so is `-0`.

    Reading a binary64 literal keeps the first digits that fit an unsigned
    64-bit significand, rounds it, and scales it by a rounded power of ten.
    It therefore rounds up to three times, and a literal with many digits or
    a large exponent need not give the nearest number. -/

namespace ChainCodec

/-- A literal: its digits before and after the point, and its exponent. -/
structure NumberLiteral where
  negative : Bool
  whole : List Nat
  fraction : Option (List Nat)
  exponent : Option Int
  deriving DecidableEq, Repr

/-- A signed binary64 number. -/
structure JsonFloat where
  negative : Bool
  magnitude : Binary64
  deriving DecidableEq, Repr

inductive JsonNumber where
  | int (n : Int)
  | float (x : JsonFloat)
  deriving DecidableEq, Repr

/-! ## Reading -/

namespace NumberLiteral

def significandLimit : Nat := UInt64.size

/-- A significand, a power of ten, and whether more digits still fit. -/
structure Scan where
  significand : Nat
  exponent : Int
  full : Bool

/-- Digits before the point that no longer fit scale the significand up. -/
def scanWhole (s : Scan) (digit : Nat) : Scan :=
  if s.full then { s with exponent := s.exponent + 1 }
  else
    let next := s.significand * 10 + digit
    if next < significandLimit then { s with significand := next }
    else { s with exponent := s.exponent + 1, full := true }

/-- Digits after the point that no longer fit are dropped. -/
def scanFraction (s : Scan) (digit : Nat) : Scan :=
  if s.full then s
  else
    let next := s.significand * 10 + digit
    if next < significandLimit then
      { s with significand := next, exponent := s.exponent - 1 }
    else { s with full := true }

def scan (l : NumberLiteral) : Scan :=
  let whole := l.whole.foldl scanWhole ⟨0, 0, false⟩
  (l.fraction.getD []).foldl scanFraction { whole with full := false }

/-- The greatest power of ten that is scaled by in one step. -/
def greatestPower : Nat := 308

/-- Divides by a power of ten, in several steps if it is large. -/
def scaleDown (x : Binary64) (power : Nat) : Option Binary64 :=
  if x.mantissa = 0 then some Binary64.zero
  else if power ≤ greatestPower then do x.div? (← Binary64.round? (Nat.pow 10 power) 1)
  else do
    let y ← x.div? (← Binary64.round? (Nat.pow 10 greatestPower) 1)
    scaleDown y (power - greatestPower)
termination_by power
decreasing_by
  have : 0 < greatestPower := by decide
  omega

/-- Multiplies by a power of ten; too large a product has no value. -/
def scaleUp (x : Binary64) (power : Nat) : Option Binary64 :=
  if x.mantissa = 0 then some Binary64.zero
  else if power ≤ greatestPower then do x.mul? (← Binary64.round? (Nat.pow 10 power) 1)
  else none

def magnitude? (l : NumberLiteral) : Option Binary64 := do
  let s := l.scan
  let e := s.exponent + l.exponent.getD 0
  let x ← Binary64.round? s.significand 1
  if 0 ≤ e then scaleUp x e.toNat else scaleDown x (-e).toNat

/-- The integer that a literal without fraction and exponent denotes, if it
    fits 64 bits and is not a negative zero. -/
def integer? (l : NumberLiteral) : Option Int :=
  if l.fraction.isSome || l.exponent.isSome then none
  else
    let n := Radix.ofDigits 10 l.whole
    if l.negative then (if 0 < n ∧ n ≤ UInt64.size / 2 then some (-(n : Int)) else none)
    else if n < UInt64.size then some n else none

/-- The number of a literal; none if it is past the binary64 range. -/
def toNumber? (l : NumberLiteral) : Option JsonNumber :=
  match l.integer? with
  | some n => some (.int n)
  | none => l.magnitude?.map fun x => .float ⟨l.negative, x⟩

end NumberLiteral

/-! ## Writing -/

namespace JsonFloat

/-- The value, if it is an integer. -/
def toInt? (x : JsonFloat) : Option Int :=
  x.magnitude.toNat?.map fun n => if x.negative then -(n : Int) else n

/-- How many digits a number may have before the point, and how many zeros
    after it, before it is written with an exponent. -/
def leastPositional : Int := -5

def greatestPositional : Int := 15

def digitText (ds : List Nat) : String := String.ofList (ds.map Nat.digitChar)

/-- Digits with a point in them, and at least one digit on both sides. -/
def positional (ds : List Nat) (lead : Int) : String :=
  if lead < 0 then "0." ++ digitText (List.replicate ((-lead).toNat - 1) 0 ++ ds)
  else
    let whole := lead.toNat + 1
    let padded := ds ++ List.replicate (whole - ds.length) 0
    let rest := padded.drop whole
    digitText (padded.take whole) ++ "." ++ (if rest.isEmpty then "0" else digitText rest)

/-- One digit, the others behind a point, and a signed exponent. -/
def scientific (ds : List Nat) (lead : Int) : String :=
  let rest := ds.drop 1
  let point := if rest.isEmpty then "" else "." ++ digitText rest
  let sign := if lead < 0 then "" else "+"
  digitText (ds.take 1) ++ point ++ "e" ++ sign ++ Decimal.render lead

def magnitudeText (x : Binary64) : String :=
  if x.mantissa = 0 then "0.0"
  else
    let (ds, lead) := x.shortest
    if leastPositional ≤ lead ∧ lead ≤ greatestPositional then positional ds lead
    else scientific ds lead

def text (x : JsonFloat) : String :=
  (if x.negative then "-" else "") ++ magnitudeText x.magnitude

end JsonFloat

/-! ## Trees -/

/-- Objects keep the order of their fields. -/
inductive Json where
  | null
  | bool (b : Bool)
  | num (n : JsonNumber)
  | str (s : String)
  | arr (items : List Json)
  | obj (fields : List (String × Json))
  deriving Inhabited

namespace Json

def int (n : Int) : Json := .num (.int n)

end Json

end ChainCodec
