import ChainCodec.Text.Quoted
import ChainCodec.Radix

/-! # Base58 text

    Bytes are read as one large number, which is written in base 58.  Leading
    zero bytes, which the number would lose, are kept as that many leading
    `1` digits, the zero of the alphabet; so text and bytes determine each
    other. -/

namespace ChainCodec.Base58

inductive Fault where
  | badCharacter (byte : UInt8) (index : Nat)
  | nonAscii (index : Nat)
  deriving DecidableEq, Repr

def Fault.message : Fault → String
  | .badCharacter b i =>
      s!"provided string contained invalid character {Text.quoted b} at byte {i}"
  | .nonAscii i => s!"provided string contained non-ascii character starting at byte {i}"

/-- Letters and digits without `0`, `O`, `I` and `l`. -/
def alphabet : List Char :=
  "123456789ABCDEFGHJKLMNPQRSTUVWXYZabcdefghijkmnopqrstuvwxyz".toList

/-- Digits of base `source` as digits of base `target`, one leading zero for
    each leading zero. -/
def rebase (source target : Nat) (ds : List Nat) : List Nat :=
  ds.takeWhile (· == 0) ++ Radix.digits target (Radix.ofDigits source ds)

def encode (bs : Bytes) : String :=
  String.ofList ((rebase 256 58 (bs.map UInt8.toNat)).map (alphabet.getD · '1'))

/-- The digit written as the byte `b`, which stands at `index` of the text. -/
def digitAt (index : Nat) (b : UInt8) : Except Fault Nat :=
  if 0x80 ≤ b then .error (.nonAscii index)
  else match alphabet.idxOf? (Char.ofNat b.toNat) with
    | some d => .ok d
    | none => .error (.badCharacter b index)

def digitsFrom (index : Nat) : Bytes → Except Fault (List Nat)
  | [] => .ok []
  | b :: rest => do
      let d ← digitAt index b
      let ds ← digitsFrom (index + 1) rest
      pure (d :: ds)

def decode (text : String) : Except Fault Bytes := do
  let ds ← digitsFrom 0 text.toUTF8.data.toList
  pure ((rebase 58 256 ds).map UInt8.ofNat)

end ChainCodec.Base58
