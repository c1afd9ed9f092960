import ChainCodec.Json
import ChainCodec.Text.Hex
import ChainCodec.Value

/-! # Values as JSON

    The bridge between value trees and JSON that needs no schema.

    JSON has no exact place for every number.  Coming in, a binary64 number
    becomes an integer only where every integer of that size is exact;
    otherwise its text is kept, so that integer codecs refuse it instead of
    rounding it.  Going out, an integer that fits neither signed nor unsigned
    64 bits becomes its decimal text, and bytes become hexadecimal text. -/

namespace ChainCodec.Value

/-- Below this bound binary64 numbers hold every integer. -/
def exactIntegers : Nat := 1 <<< 53

/-- An integer where it is known to be exact, and otherwise a text. -/
def ofNumber : JsonNumber → Value
  | .int n => .int n
  | .float x =>
      match x.toInt? with
      | some n => if n.natAbs ≤ exactIntegers then .int n else .str x.text
      | none => .str x.text

mutual

/-- The value that stands for a JSON tree; it keeps all fields in their order. -/
def ofJson : Json → Value
  | .null => .null
  | .bool b => .bool b
  | .num n => ofNumber n
  | .str s => .str s
  | .arr items => .array (ofJsonItems items)
  | .obj fields => .object (ofJsonFields fields)

def ofJsonItems : List Json → List Value
  | [] => []
  | j :: js => ofJson j :: ofJsonItems js

def ofJsonFields : List (String × Json) → List (String × Value)
  | [] => []
  | (name, j) :: rest => (name, ofJson j) :: ofJsonFields rest

end

/-- Whether an integer fits 64 bits, signed or unsigned. -/
def fitsWord (n : Int) : Bool :=
  -((UInt64.size / 2 : Nat) : Int) ≤ n && n < UInt64.size

/-- A number if it fits a word, and its digits otherwise. -/
def intToJson (n : Int) : Json :=
  if fitsWord n then .int n else .str (Decimal.render n)

mutual

def toJson : Value → Json
  | .null => .null
  | .bool b => .bool b
  | .int n => intToJson n
  | .str s => .str s
  | .bytes bs => .str (Hex.encode bs)
  | .array items => .arr (toJsonItems items)
  | .object fields => .obj (toJsonFields fields)
  | .lazy v => toJson v

def toJsonItems : List Value → List Json
  | [] => []
  | v :: vs => toJson v :: toJsonItems vs

def toJsonFields : List (String × Value) → List (String × Json)
  | [] => []
  | (name, v) :: rest => (name, toJson v) :: toJsonFields rest

end

end ChainCodec.Value
