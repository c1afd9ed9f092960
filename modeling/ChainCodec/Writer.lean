import ChainCodec.Action
import ChainCodec.Error

/-! # Writing bytes

    A writer holds the bytes written so far; writing only ever appends. -/

namespace ChainCodec

structure Writer where
  data : Array UInt8

namespace Writer

def empty : Writer := ⟨#[]⟩

/-- The bytes written so far. -/
def bytes (w : Writer) : Bytes := w.data.toList

def size (w : Writer) : Nat := w.data.size

def append (bs : Bytes) (w : Writer) : Writer := ⟨w.data.appendList bs⟩

@[simp] theorem bytes_empty : empty.bytes = [] := rfl

@[simp] theorem bytes_append (bs : Bytes) (w : Writer) :
    (w.append bs).bytes = w.bytes ++ bs := by
  simp [append, bytes]

end Writer

/-- An action that writes. -/
abbrev Write (α : Type) : Type := Action Writer Error α

/-! ## Variable-length integers -/

namespace Varint

/-- Groups of seven bits, lowest first; every byte but the last has its high
    bit set.  A 32-bit number has at most five groups. -/
def groups : (fuel : Nat) → Nat → Bytes
  | 0, _ => []
  | fuel + 1, n =>
      if n < 128 then [UInt8.ofNat n]
      else UInt8.ofNat (n % 128 + 128) :: groups fuel (n / 128)

def encode (n : UInt32) : Bytes := groups 5 n.toNat

end Varint

namespace Write

def bytes (bs : Bytes) : Write Unit := Action.modify (·.append bs)

/-- The `width` low bytes of `n`, lowest first. -/
def fixed (width n : Nat) : Write Unit := bytes (LittleEndian.encode width n)

def byte (b : UInt8) : Write Unit := bytes [b]

def varint (n : UInt32) : Write Unit := bytes (Varint.encode n)

def fail {α : Type} (cause : Cause) : Write α := Action.fail (.validation cause)

/-- Marks errors as being about a part. -/
def within {α : Type} (c : Context) (x : Write α) : Write α := x.mapError (Error.within c)

/-- What an action writes when nothing was written before. -/
def run {α : Type} (x : Write α) : Except Error Bytes :=
  match x Writer.empty with
  | (.ok _, w) => .ok w.bytes
  | (.error e, _) => .error e

@[simp] theorem bytes_apply (bs : Bytes) (w : Writer) :
    bytes bs w = (.ok (), w.append bs) := rfl

end Write

end ChainCodec
