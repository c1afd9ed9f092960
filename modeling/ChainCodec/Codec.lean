import ChainCodec.Error

/-! # Codecs

    A codec describes one wire type.  Codecs are data: leaves for scalars,
    combinators for collections, unions and records, and `operation`, which
    refers to a table of its own through a registry.  What a codec does to a
    value or to bytes is defined by recursion on it in the modules below this
    one.

    Operation schemas contain operations again, through proposals.  Such a
    graph is closed by name: an operation codec holds the id of a registry,
    and the registries say which table stands behind an id. -/

namespace ChainCodec

/-! ## Integers -/

inductive IntWidth where
  | w8
  | w16
  | w32
  | w64
  deriving DecidableEq, Repr

def IntWidth.bytes : IntWidth → Nat
  | .w8 => 1
  | .w16 => 2
  | .w32 => 4
  | .w64 => 8

/-- How many values fit the width. -/
def IntWidth.size : IntWidth → Nat
  | .w8 => UInt8.size
  | .w16 => UInt16.size
  | .w32 => UInt32.size
  | .w64 => UInt64.size

theorem IntWidth.capacity_bytes (w : IntWidth) : LittleEndian.capacity w.bytes = w.size := by
  cases w <;> rfl

/-- A fixed-width integer type. -/
structure IntType where
  signed : Bool
  width : IntWidth
  deriving DecidableEq, Repr

namespace IntType

def bits (t : IntType) : Nat := 8 * t.width.bytes

def name (t : IntType) : String :=
  (if t.signed then "i" else "u") ++ toString t.bits

/-- How many values the type has. -/
def size (t : IntType) : Nat := t.width.size

def least (t : IntType) : Int := if t.signed then -((t.size / 2 : Nat) : Int) else 0

def greatest (t : IntType) : Int :=
  if t.signed then ((t.size / 2 : Nat) : Int) - 1 else (t.size : Int) - 1

/-- The value of the type with the same low bits. -/
def wrap (t : IntType) (n : Int) : Int :=
  let low := n % t.size
  if t.greatest < low then low - t.size else low

/-- The bit pattern of a value of the type, as a natural. -/
def toBits (t : IntType) (n : Int) : Nat := (n % t.size).toNat

/-- 64-bit values are written as text, since JSON numbers may lose digits. -/
def isText (t : IntType) : Bool := t.width == .w64

end IntType

/-! ## Operation registries -/

/-- The constants in which chains of the same family differ. -/
structure ChainConfig where
  /-- Starts the text of public keys and addresses. -/
  addressPrefix : String := "ECHO"
  /-- The asset in which a fee is paid that the caller left out. -/
  coreAssetId : String := "1.3.0"
  deriving DecidableEq, Repr, Inhabited

/-- Names a registry by the chain whose operations it holds, and by a serial
    number, since one chain may be set up more than once. -/
structure RegistryId where
  config : ChainConfig
  serial : Nat
  deriving DecidableEq, Repr

/-- How an operation codec reaches its table, and what it does about fees. -/
structure OperationLink where
  registry : RegistryId
  /-- Whether the codec keeps the registry alive. -/
  owned : Bool
  feeAsset : String
  /-- Whether a fee that is left out becomes a zero fee in `feeAsset`. -/
  zeroFee : Bool
  deriving DecidableEq, Repr

/-! ## Codecs -/

inductive Codec where
  | int (type : IntType)
  /-- A variable-length unsigned 32-bit integer. -/
  | varint
  | bool
  /-- Bytes of a fixed number, or preceded by their number. -/
  | bytes (size : Option Nat)
  | string
  /-- Seconds since 1970. -/
  | time
  /-- Nothing, in zero bytes. -/
  | void
  | vector (element : Codec)
  /-- A vector in the order of its elements' bytes, without repetition. -/
  | set (element : Codec)
  /-- Pairs in the order of their keys' bytes, without repeated keys. -/
  | map (key value : Codec)
  | optional (inner : Codec)
  | pair (first second : Codec)
  /-- A tag and a payload of the codec that the tag selects; of several cases
      with one tag the first counts.  The label starts error contexts. -/
  | variant (label : String) (cases : List (UInt32 × Codec))
  /-- Named fields, one after the other without separators. -/
  | struct (fields : List (String × Codec)) (ignoreUnknown : Bool)
  /-- An id of one space and one of the types; only the instance is on the
      wire. -/
  | objectId (space type : UInt8) (moreTypes : List UInt8)
  /-- An id of any space and type, packed into 64 bits. -/
  | anyObjectId
  | publicKey (scheme : KeyScheme) (start : String)
  | address (scheme : AddressScheme) (start : String)
  /-- An operation id and the fields of that operation. -/
  | operation (link : OperationLink)

/-- The cases of a tagged union. -/
abbrev CaseTable : Type := List (UInt32 × Codec)

namespace Codec

/-! ## Building codecs -/

def i8 : Codec := .int ⟨true, .w8⟩

def i16 : Codec := .int ⟨true, .w16⟩

def i32 : Codec := .int ⟨true, .w32⟩

def i64 : Codec := .int ⟨true, .w64⟩

def u8 : Codec := .int ⟨false, .w8⟩

def u16 : Codec := .int ⟨false, .w16⟩

def u32 : Codec := .int ⟨false, .w32⟩

def u64 : Codec := .int ⟨false, .w64⟩

/-- Bytes preceded by their number. -/
def blob : Codec := .bytes none

def fixedBytes (size : Nat) : Codec := .bytes (some size)

/-- A struct that refuses unknown keys. -/
def record (fields : List (String × Codec)) : Codec := .struct fields false

/-- A struct that drops unknown keys. -/
def openRecord (fields : List (String × Codec)) : Codec := .struct fields true

/-- Appends fields to a struct; other codecs stay as they are. -/
def extend (c : Codec) (more : List (String × Codec)) : Codec :=
  match c with
  | .struct fields ignore => .struct (fields ++ more) ignore
  | c => c

/-- How the error context of a tagged union starts by default. -/
def defaultLabel : String := "static variant with key"

/-- Inserts a case by its tag, in place of one with the same tag. -/
def insertCase (tag : UInt32) (c : Codec) : CaseTable → CaseTable
  | [] => [(tag, c)]
  | (t, d) :: rest =>
      if tag < t then (tag, c) :: (t, d) :: rest
      else if tag = t then (tag, c) :: rest
      else (t, d) :: insertCase tag c rest

/-- Cases by ascending tag; the last one given for a tag counts. -/
def caseTable (cases : CaseTable) : CaseTable :=
  cases.foldl (fun table (tag, c) => insertCase tag c table) []

/-- A tagged union. -/
def union (cases : CaseTable) : Codec := .variant defaultLabel (caseTable cases)

def protocolId (t : ProtocolType) : Codec := .objectId ReservedSpace.protocol.code t.code []

def implementationId (t : ImplementationType) : Codec :=
  .objectId ReservedSpace.implementation.code t.code []

/-- Ids of a space with any of the types, of which there has to be one. -/
def objectIdOf (space : UInt8) : List UInt8 → Except Error Codec
  | [] => .error (.validation .noObjectTypes)
  | type :: more => .ok (.objectId space type more)

/-! ## Looking into codecs -/

def fields : Codec → List (String × Codec)
  | .struct fields _ => fields
  | _ => []

def fieldNames (c : Codec) : List String := c.fields.map Prod.fst

def field? (c : Codec) (name : String) : Option Codec := c.fields.lookup name

def cases : Codec → CaseTable
  | .variant _ cases => cases
  | _ => []

def tags (c : Codec) : List UInt32 := c.cases.map Prod.fst

def case? (c : Codec) (tag : UInt32) : Option Codec := c.cases.lookup tag

/-- Whether the JSON form is a string, so that values may be the keys of a
    JSON object. -/
def hasTextForm : Codec → Bool
  | .int t => t.isText
  | .bytes _ | .string | .time | .objectId .. | .anyObjectId | .publicKey .. | .address .. => true
  | _ => false

end Codec

end ChainCodec
