import ChainCodec.Chain.Address
import ChainCodec.Chain.ObjectId
import ChainCodec.Text.Hex
import ChainCodec.Text.Utf8
import ChainCodec.Time.Iso
import ChainCodec.Value

/-! # Errors

    An error is a cause, a kind, and the path from the whole value to the
    part that the cause is about.  Composite codecs never recover from an
    error of a part: they put one step in front of its path and pass it on.

    The kind tells the phase that failed: `validation` for values that have
    no canonical form, the middle three for bytes that cannot be read, and
    `registry` for operation codecs used without their table. -/

namespace ChainCodec

inductive ErrorKind where
  | validation
  | decode
  | bufferOutOfBound
  | depthExceed
  | registry
  deriving DecidableEq, Repr

/-- Kinds raised while reading bytes. -/
def ErrorKind.isDecode : ErrorKind → Bool
  | .decode | .bufferOutOfBound | .depthExceed => true
  | .validation | .registry => false

/-! ## Paths -/

/-- One step from a composite value to a part of it. -/
inductive Context where
  | element (index : Nat)
  | key (index : Nat)
  | value (index : Nat)
  | field (name : String)
  | variant (label : String) (tag : UInt32)
  /-- A step described in words. -/
  | note (text : String)
  deriving DecidableEq, Repr

def Context.text : Context → String
  | .element i => s!"element {i}"
  | .key i => s!"key {i}"
  | .value i => s!"value {i}"
  | .field name => s!"struct key \"{name}\""
  | .variant label tag => s!"{label} {tag}"
  | .note text => text

/-! ## Causes -/

/-- Misuse of an operation registry. -/
inductive RegistryFault where
  | alreadyInstalled
  | notInstalled
  | dropped
  deriving DecidableEq, Repr

def RegistryFault.message : RegistryFault → String
  | .alreadyInstalled => "operation registry is already installed"
  | .notInstalled => "operation registry is not installed"
  | .dropped => "operation registry was dropped"

inductive Cause where
  /-- A value of the wrong shape. -/
  | mismatch (expected : String) (got : Value.Kind)
  | outOfRange (value : Int) (what : String) (low high : Int)
  | decimal (fault : Decimal.Fault)
  | hex (fault : Hex.Fault)
  | utf8 (fault : Utf8.Fault)
  | byteCount (expected count : Nat)
  | blobTooLong
  | stringTooLong
  | collectionTooLong (count : Nat)
  | boolByte (byte : UInt8)
  | optionalFlag (byte : UInt8)
  | timeText (text : String) (fault : Iso.Fault)
  | timeOutOfRange (seconds : Int)
  | recordKeys
  | mapEntry (index : Nat)
  | canonicalMapEntry (index : Nat)
  | duplicateElement (bytes : Bytes)
  | duplicateKey (bytes : Bytes)
  | unknownTag (tag : UInt32)
  | unknownKey (name : String)
  | objectId (fault : ObjectId.Fault)
  | noObjectTypes
  | ambiguousType (types : List UInt8)
  | wrongSpace (id : ObjectId) (space : UInt8)
  | wrongType (id : ObjectId) (types : List UInt8)
  | wideInstance (id : ObjectId)
  | publicKey (fault : PublicKey.Fault)
  | address (fault : Address.Fault)
  | varintOverflow (value : Nat)
  | varintTooLong
  | outOfBound (offset length capacity : Nat)
  | depthExceeded (limit : Nat)
  | trailingBytes (count : Nat)
  | registry (fault : RegistryFault)
  /-- A cause described in words. -/
  | note (text : String)
  deriving DecidableEq, Repr

/-- Numbers between brackets. -/
def listText (ns : List UInt8) : String :=
  "[" ++ String.intercalate ", " (ns.map fun n => toString n.toNat) ++ "]"

def Cause.message : Cause → String
  | .mismatch expected got => s!"expected {expected}, got {got.name}"
  | .outOfRange v what low high => s!"value {v} is out of range for {what} [{low}, {high}]"
  | .decimal f => f.message
  | .hex f => s!"invalid hex string: {f.message}"
  | .utf8 f => s!"string is not valid utf-8: {f.message}"
  | .byteCount expected n => s!"expected {expected} bytes, got {n}"
  | .blobTooLong => "byte blob longer than u32::MAX"
  | .stringTooLong => "string longer than u32::MAX"
  | .collectionTooLong n => s!"collection of {n} elements is too long"
  | .boolByte b => s!"invalid bool byte 0x{Text.hexPair b}"
  | .optionalFlag b => s!"invalid optional flag {b.toNat}"
  | .timeText text f => s!"invalid time point \"{text}\": {f.message}"
  | .timeOutOfRange s => s!"time point {s} is out of range"
  | .recordKeys => "map keys of this type cannot be given as a record"
  | .mapEntry i => s!"map entry {i} is not a [key, value] pair"
  | .canonicalMapEntry i => s!"map entry {i} is not a canonical [key, value] pair"
  | .duplicateElement bs => s!"duplicate set element {Hex.encode bs}"
  | .duplicateKey bs => s!"duplicate map key {Hex.encode bs}"
  | .unknownTag tag => s!"serializer with key {tag} not found"
  | .unknownKey name => s!"unknown struct key \"{name}\""
  | .objectId f => f.message
  | .noObjectTypes => "object id serializer needs at least one type"
  | .ambiguousType types =>
      s!"ambiguous object type: wire form does not say which of {listText types}"
  | .wrongSpace id space => s!"object id {id.render} is not in reserved space {space}"
  | .wrongType id types =>
      s!"object id {id.render} has type {id.type}, expected one of {listText types}"
  | .wideInstance id => s!"instance of object id {id.render} does not fit varint32"
  | .publicKey f => f.message
  | .address f => f.message
  | .varintOverflow n => s!"varint32 value {n} overflows 32 bits"
  | .varintTooLong => "varint32 is longer than 5 bytes"
  | .outOfBound offset n capacity => s!"buffer out of bound: {offset} + {n} > {capacity}"
  | .depthExceeded limit => s!"maximum decode depth {limit} exceeded"
  | .trailingBytes n => s!"{n} unexpected trailing bytes after decode"
  | .registry f => f.message
  | .note text => text

/-! ## Errors -/

structure Error where
  kind : ErrorKind
  cause : Cause
  path : List Context := []
  deriving DecidableEq, Repr

namespace Error

def validation (cause : Cause) : Error := { kind := .validation, cause }

def decode (cause : Cause) : Error := { kind := .decode, cause }

def ofRegistry (fault : RegistryFault) : Error := { kind := .registry, cause := .registry fault }

def outOfBound (offset length capacity : Nat) : Error :=
  { kind := .bufferOutOfBound, cause := .outOfBound offset length capacity }

def depthExceeded (limit : Nat) : Error := { kind := .depthExceed, cause := .depthExceeded limit }

/-- Puts a step in front of the path.  The kind stays, but a read past the
    end that is no longer at the top counts as plain decoding. -/
def within (c : Context) (e : Error) : Error :=
  { e with
    kind := if e.kind = .bufferOutOfBound then .decode else e.kind
    path := c :: e.path }

/-- The steps of the path and then the cause, joined by colons. -/
def message (e : Error) : String :=
  e.path.foldr (fun c text => c.text ++ ": " ++ text) e.cause.message

def isValidation (e : Error) : Bool := e.kind == .validation

def isDecode (e : Error) : Bool := e.kind.isDecode

theorem message_within (c : Context) (e : Error) :
    (e.within c).message = c.text ++ ": " ++ e.message := rfl

@[simp] theorem isDecode_within (c : Context) (e : Error) :
    (e.within c).isDecode = e.isDecode := by
  obtain ⟨kind, cause, path⟩ := e
  cases kind <;> rfl

@[simp] theorem isValidation_within (c : Context) (e : Error) :
    (e.within c).isValidation = e.isValidation := by
  obtain ⟨kind, cause, path⟩ := e
  cases kind <;> rfl

end Error

end ChainCodec
