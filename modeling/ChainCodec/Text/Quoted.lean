import ChainCodec.Bytes

/-! # Quoting one byte in a message

    Messages that complain about a single byte show it as the character of
    the same number between apostrophes.  Characters that do not print are
    shown by an escape. -/

namespace ChainCodec.Text

def hexDigit (n : Nat) : Char := Nat.digitChar n

/-- Two lowercase hexadecimal digits. -/
def hexPair (b : UInt8) : String :=
  String.ofList [hexDigit (b.toNat / 16), hexDigit (b.toNat % 16)]

/-- Hexadecimal digits without leading zeros. -/
def hexNumber (b : UInt8) : String :=
  if b < 16 then String.ofList [hexDigit b.toNat] else hexPair b

/-- Control characters, the no-break space and the soft hyphen do not print. -/
def prints (b : UInt8) : Bool :=
  0x20 ≤ b && b ≠ 0xad && (b < 0x7f || 0xa0 < b)

def escaped (b : UInt8) : String :=
  if b = 0x00 then "\\0"
  else if b = 0x09 then "\\t"
  else if b = 0x0a then "\\n"
  else if b = 0x0d then "\\r"
  else if b = 0x27 then "\\'"
  else if b = 0x5c then "\\\\"
  else if prints b then String.singleton (Char.ofNat b.toNat)
  else "\\u\x7b" ++ hexNumber b ++ "\x7d"

def quoted (b : UInt8) : String := "'" ++ escaped b ++ "'"

end ChainCodec.Text
