import ChainCodec.Radix

/-! # Decimal integers

    Base-10 text of integers.  Reading takes an optional minus sign and one
    or more ASCII digits, leading zeros included, and refuses values outside
    the signed 128-bit range. -/

namespace ChainCodec.Decimal

inductive Fault where
  | notDecimal (text : String)
  | outOfRange (text : String)
  deriving DecidableEq, Repr

def Fault.message : Fault → String
  | .notDecimal text => s!"\"{text}\" is not a base-10 integer"
  | .outOfRange text => s!"\"{text}\" is out of range"

/-- How many of the signed 128-bit numbers are negative. -/
def negatives : Nat := UInt64.size * UInt64.size / 2

def least : Int := -(negatives : Int)

def greatest : Int := (negatives : Int) - 1

/-! ## Writing -/

def renderNat (n : Nat) : List Char :=
  if n = 0 then ['0'] else (Radix.digits 10 n).map Nat.digitChar

/-- The shortest text: no leading zero, and a sign only before a negative. -/
def render (n : Int) : String :=
  if n < 0 then String.ofList ('-' :: renderNat n.natAbs)
  else String.ofList (renderNat n.natAbs)

/-! ## Reading -/

def digitValue (c : Char) : Nat := c.toNat - '0'.toNat

/-- The number that a run of digits denotes. -/
def valueOf (digits : List Char) : Nat := Radix.ofDigits 10 (digits.map digitValue)

/-- The sign (`true` for a minus) and what follows it. -/
def splitSign : List Char → Bool × List Char
  | '-' :: digits => (true, digits)
  | digits => (false, digits)

def parse (text : String) : Except Fault Int :=
  let (negative, digits) := splitSign text.toList
  if digits.isEmpty || !digits.all Char.isDigit then
    .error (.notDecimal text)
  else
    let value : Int := if negative then -(valueOf digits : Int) else valueOf digits
    if least ≤ value ∧ value ≤ greatest then .ok value else .error (.outOfRange text)

end ChainCodec.Decimal
