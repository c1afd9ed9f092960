import ChainCodec.Text.Quoted

/-! # Hexadecimal text

    Two digits for each byte.  Written digits are lowercase; digits of either
    case are read.  Reading first refuses a text of odd length and then the
    first byte of the text that is no digit. -/

namespace ChainCodec.Hex

inductive Fault where
  | oddLength
  | badDigit (byte : UInt8) (position : Nat)
  deriving DecidableEq, Repr

def Fault.message : Fault → String
  | .oddLength => "Odd number of digits"
  | .badDigit b i => s!"Invalid character {Text.quoted b} at position {i}"

/-- The two digits of every byte in turn. -/
def encodeChars (bs : Bytes) : List Char :=
  bs.flatMap fun b => [Text.hexDigit (b.toNat / 16), Text.hexDigit (b.toNat % 16)]

def encode (bs : Bytes) : String := String.ofList (encodeChars bs)

def digitValue? (b : UInt8) : Option UInt8 :=
  if 0x30 ≤ b ∧ b ≤ 0x39 then some (b - 0x30)
  else if 0x61 ≤ b ∧ b ≤ 0x66 then some (b - 0x61 + 10)
  else if 0x41 ≤ b ∧ b ≤ 0x46 then some (b - 0x41 + 10)
  else none

def digitAt (position : Nat) (b : UInt8) : Except Fault UInt8 :=
  match digitValue? b with
  | some d => .ok d
  | none => .error (.badDigit b position)

/-- Reads pairs of digits; `position` is that of the first one. -/
def decodeFrom (position : Nat) : Bytes → Except Fault Bytes
  | high :: low :: rest => do
      let h ← digitAt position high
      let l ← digitAt (position + 1) low
      let bs ← decodeFrom (position + 2) rest
      pure ((h * 16 + l) :: bs)
  | _ => .ok []

def decode (text : String) : Except Fault Bytes :=
  let digits := text.toUTF8.data.toList
  if digits.length % 2 = 1 then .error .oddLength else decodeFrom 0 digits

end ChainCodec.Hex
