import ChainCodec.Bytes

/-! # UTF-8

    Strings are written as their UTF-8 bytes.  Reading accepts well-formed
    bytes only; for other bytes `locate` finds the first sequence that is
    broken or cut off. -/

namespace ChainCodec.Utf8

inductive Fault where
  /-- The `length` bytes from `index` start no character. -/
  | invalid (length index : Nat)
  /-- The input ends inside the character that starts at `index`. -/
  | incomplete (index : Nat)
  deriving DecidableEq, Repr

def Fault.message : Fault → String
  | .invalid n i => s!"invalid utf-8 sequence of {n} bytes from index {i}"
  | .incomplete i => s!"incomplete utf-8 byte sequence from index {i}"

/-- The least and the greatest byte allowed at a place. -/
abbrev Range : Type := UInt8 × UInt8

/-- What has to follow a first byte; `none` if no character starts with it.
    The second byte is bounded so that each character has one spelling and
    none lies among the surrogates or past the last code point. -/
def continuation? (b : UInt8) : Option (List Range) :=
  let tail : Range := (0x80, 0xbf)
  if b < 0x80 then some []
  else if b < 0xc2 then none
  else if b ≤ 0xdf then some [tail]
  else if b = 0xe0 then some [(0xa0, 0xbf), tail]
  else if b = 0xed then some [(0x80, 0x9f), tail]
  else if b ≤ 0xef then some [tail, tail]
  else if b = 0xf0 then some [(0x90, 0xbf), tail, tail]
  else if b ≤ 0xf3 then some [tail, tail, tail]
  else if b = 0xf4 then some [(0x80, 0x8f), tail, tail]
  else none

/-- The first fault, where a character that started at `start` has `seen`
    bytes behind it and still waits for bytes in the ranges `due`. -/
def locateFrom (start seen : Nat) : (due : List Range) → Bytes → Option Fault
  | [], [] => none
  | _ :: _, [] => some (.incomplete start)
  | [], b :: rest =>
      match continuation? b with
      | some due => locateFrom (start + seen) 1 due rest
      | none => some (.invalid 1 (start + seen))
  | (low, high) :: due, b :: rest =>
      if low ≤ b ∧ b ≤ high then locateFrom start (seen + 1) due rest
      else some (.invalid seen start)

def locate (bs : Bytes) : Option Fault := locateFrom 0 0 [] bs

def encode (s : String) : Bytes := s.toUTF8.data.toList

def decode (bs : Bytes) : Except Fault String :=
  match String.fromUTF8? ⟨bs.toArray⟩ with
  | some s => .ok s
  | none => .error ((locate bs).getD (.incomplete 0))

@[simp] theorem decode_encode (s : String) : decode (encode s) = .ok s := by
  have h : s.toByteArray.IsValidUTF8 := s.isValidUTF8
  simp [decode, encode, String.fromUTF8?, String.toUTF8, h, String.fromUTF8]

end ChainCodec.Utf8
