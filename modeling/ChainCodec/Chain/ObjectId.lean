import ChainCodec.Chain.Space
import ChainCodec.Text.Decimal

/-! # Object ids

    An object is named by its space, its type there and its instance.  The
    text is `space.type.instance`; the packed form is one 64-bit number with
    8 bits for the space, 8 for the type and 48 for the instance. -/

namespace ChainCodec

structure ObjectId where
  space : UInt8
  type : UInt8
  inst : UInt64
  deriving DecidableEq, Repr

namespace ObjectId

def render (id : ObjectId) : String :=
  Decimal.render id.space.toNat ++ "." ++ Decimal.render id.type.toNat ++ "." ++
    Decimal.render id.inst.toNat

inductive Fault where
  | malformed (text : String)
  /-- The packed form has no room for the instance. -/
  | wide (id : ObjectId)
  deriving DecidableEq, Repr

def Fault.message : Fault → String
  | .malformed text => s!"invalid object id \"{text}\""
  | .wide id => "instance of object id " ++ id.render ++ " does not fit 48 bits"

/-! ## Text -/

/-- A decimal number from zero on and below the limit. -/
def part? (limit : Nat) (text : String) : Option Nat :=
  match Decimal.parse text with
  | .ok (.ofNat n) => if n < limit then some n else none
  | _ => none

/-- The pieces between the dots. -/
def splitDots : List Char → List (List Char)
  | [] => [[]]
  | '.' :: rest => [] :: splitDots rest
  | c :: rest =>
      match splitDots rest with
      | [] => [[c]]
      | piece :: pieces => (c :: piece) :: pieces

def parse? (text : String) : Option ObjectId :=
  match splitDots text.toList with
  | [space, type, inst] => do
      let s ← part? UInt8.size (String.ofList space)
      let t ← part? UInt8.size (String.ofList type)
      let i ← part? UInt64.size (String.ofList inst)
      pure ⟨UInt8.ofNat s, UInt8.ofNat t, UInt64.ofNat i⟩
  | _ => none

def parse (text : String) : Except Fault ObjectId :=
  match parse? text with
  | some id => .ok id
  | none => .error (.malformed text)

/-! ## Packed form -/

/-- The packed form has 48 bits for the instance. -/
def instanceSize : Nat := 1 <<< 48

/-- The packed number, if it has room for the instance. -/
def packed (id : ObjectId) : Except Fault UInt64 :=
  if id.inst.toNat < instanceSize then
    .ok (UInt64.ofNat
      ((id.space.toNat * UInt8.size + id.type.toNat) * instanceSize + id.inst.toNat))
  else .error (.wide id)

def ofPacked (n : UInt64) : ObjectId where
  space := UInt8.ofNat (n.toNat / instanceSize / UInt8.size)
  type := UInt8.ofNat (n.toNat / instanceSize)
  inst := UInt64.ofNat (n.toNat % instanceSize)

/-! ## Order -/

/-- By space, then by type, then by instance. -/
def le (a b : ObjectId) : Bool :=
  if a.space ≠ b.space then a.space < b.space
  else if a.type ≠ b.type then a.type < b.type
  else a.inst ≤ b.inst

end ObjectId

end ChainCodec
