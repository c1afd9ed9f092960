import ChainCodec.Chain.PublicKey
import ChainCodec.Digest.Sha256

/-! # Addresses

    Bytes derived one way from a public key.  A Graphene address is a bare
    digest, and its text adds a chain prefix and a checksum.  A PTS address
    holds a version byte and its own checksum, and its text is plain
    base58. -/

namespace ChainCodec

inductive AddressScheme where
  | graphene
  | pts
  deriving DecidableEq, Repr

def AddressScheme.name : AddressScheme → String
  | .graphene => "Graphene"
  | .pts => "Pts"

def AddressScheme.byteLength : AddressScheme → Nat
  | .graphene => 20
  | .pts => 25

structure Address where
  scheme : AddressScheme
  bytes : Bytes
  deriving DecidableEq, Repr

namespace Address

inductive Fault where
  | noPrefix (text expected : String)
  | notBase58 (text : String) (fault : Base58.Fault)
  | wrongLength (text : String) (length : Nat)
  | badChecksum (text : String)
  | byteLength (expected length : Nat)
  | badPtsChecksum
  deriving DecidableEq, Repr

def Fault.message : Fault → String
  | .noPrefix text start => s!"address \"{text}\" does not start with {start}"
  | .notBase58 text f => s!"address \"{text}\" is not base58: {f.message}"
  | .wrongLength text n => s!"address \"{text}\" decodes to {n} bytes, expected 24"
  | .badChecksum text => s!"address \"{text}\" has an invalid checksum"
  | .byteLength expected n => s!"address must be {expected} bytes, got {n}"
  | .badPtsChecksum => "pts address has an invalid checksum"

def ptsVersion : UInt8 := 56

/-- The bytes of a PTS address before its checksum. -/
def ptsBodyLength : Nat := 21

def grapheneChecksum (bs : Bytes) : Bytes := (Ripemd160.digest bs).take 4

/-- SHA-256 applied twice. -/
def doubleSha256 (bs : Bytes) : Bytes := Sha256.digest (Sha256.digest bs)

def ptsChecksum (body : Bytes) : Bytes := (doubleSha256 body).take 4

def ofPublicKey (scheme : AddressScheme) (point : Bytes) : Address :=
  match scheme with
  | .graphene => ⟨scheme, Ripemd160.digest (Sha512.digest point)⟩
  | .pts =>
      let body := ptsVersion :: Ripemd160.digest (Sha256.digest point)
      ⟨scheme, body ++ ptsChecksum body⟩

/-- An address from its bytes.  The version of a PTS address is not looked
    at, only its checksum. -/
def ofBytes (scheme : AddressScheme) (bs : Bytes) : Except Fault Address :=
  if bs.length ≠ scheme.byteLength then .error (.byteLength scheme.byteLength bs.length)
  else
    match scheme with
    | .graphene => .ok ⟨scheme, bs⟩
    | .pts =>
        if bs.drop ptsBodyLength = ptsChecksum (bs.take ptsBodyLength) then .ok ⟨scheme, bs⟩
        else .error .badPtsChecksum

def render (start : String) (a : Address) : String :=
  match a.scheme with
  | .graphene => start ++ Base58.encode (a.bytes ++ grapheneChecksum a.bytes)
  | .pts => Base58.encode a.bytes

/-- The base58 part of the text; a PTS address has no prefix. -/
def bodyOf (scheme : AddressScheme) (start text : String) : Except Fault String :=
  match scheme with
  | .pts => .ok text
  | .graphene =>
      match dropPrefix? start text with
      | some body => .ok body
      | none => .error (.noPrefix text start)

/-- The bytes of the address without the checksum of its text. -/
def unchecked (scheme : AddressScheme) (text : String) (data : Bytes) : Except Fault Bytes :=
  match scheme with
  | .pts => .ok data
  | .graphene =>
      let length := scheme.byteLength
      if data.length ≠ length + 4 then .error (.wrongLength text data.length)
      else if data.drop length = grapheneChecksum (data.take length) then
        .ok (data.take length)
      else .error (.badChecksum text)

def parse (scheme : AddressScheme) (start text : String) : Except Fault Address := do
  let body ← bodyOf scheme start text
  let data ← (Base58.decode body).mapError (.notBase58 text)
  let bs ← unchecked scheme text data
  ofBytes scheme bs

end Address

end ChainCodec
