import ChainCodec.Digest.Ripemd160
import ChainCodec.Digest.Sha512
import ChainCodec.Text.Base58

/-! # Public keys

    A key is a fixed number of bytes; its text is a chain prefix followed by
    base58.  Compressed secp256k1 points carry a checksum in their text,
    ed25519 keys do not. -/

namespace ChainCodec

inductive KeyScheme where
  | secp256k1
  | ed25519
  deriving DecidableEq, Repr

def KeyScheme.keyLength : KeyScheme → Nat
  | .secp256k1 => 33
  | .ed25519 => 32

/-- The text after a prefix that it has to start with. -/
def dropPrefix? (start text : String) : Option String :=
  if start.toList.isPrefixOf text.toList then
    some (String.ofList (text.toList.drop start.length))
  else none

namespace PublicKey

inductive Fault where
  | noPrefix (text expected : String)
  | notBase58 (text : String) (fault : Base58.Fault)
  | wrongLength (text : String) (length expected : Nat)
  | badChecksum (text : String)
  | keyLength (expected length : Nat)
  /-- A secp256k1 point starts with 2 or 3, the sign of its omitted half. -/
  | notCompressed (first : UInt8)
  deriving DecidableEq, Repr

def Fault.message : Fault → String
  | .noPrefix text start => s!"public key \"{text}\" does not start with {start}"
  | .notBase58 text f => s!"public key \"{text}\" is not base58: {f.message}"
  | .wrongLength text n expected =>
      s!"public key \"{text}\" decodes to {n} bytes, expected {expected}"
  | .badChecksum text => s!"public key \"{text}\" has an invalid checksum"
  | .keyLength expected n => s!"public key must be {expected} bytes, got {n}"
  | .notCompressed b => s!"public key point prefix 0x{Text.hexPair b} is not compressed"

def checksum (point : Bytes) : Bytes := (Ripemd160.digest (Sha512.digest point)).take 4

def render (scheme : KeyScheme) (start : String) (point : Bytes) : String :=
  match scheme with
  | .secp256k1 => start ++ Base58.encode (point ++ checksum point)
  | .ed25519 => start ++ Base58.encode point

/-- Whether bytes are a key of the scheme. -/
def check (scheme : KeyScheme) (point : Bytes) : Except Fault Unit :=
  if point.length ≠ scheme.keyLength then
    .error (.keyLength scheme.keyLength point.length)
  else
    match scheme, point with
    | .secp256k1, first :: _ =>
        if first = 2 ∨ first = 3 then .ok () else .error (.notCompressed first)
    | _, _ => .ok ()

/-- Splits the checksum off and compares it. -/
def unchecked (scheme : KeyScheme) (text : String) (data : Bytes) : Except Fault Bytes :=
  match scheme with
  | .ed25519 => .ok data
  | .secp256k1 =>
      let expected := scheme.keyLength + 4
      if data.length ≠ expected then .error (.wrongLength text data.length expected)
      else
        let point := data.take scheme.keyLength
        if data.drop scheme.keyLength = checksum point then .ok point
        else .error (.badChecksum text)

/-- The base58 part of the text. -/
def bodyOf (start text : String) : Except Fault String :=
  match dropPrefix? start text with
  | some body => .ok body
  | none => .error (.noPrefix text start)

def parse (scheme : KeyScheme) (start text : String) : Except Fault Bytes := do
  let body ← bodyOf start text
  let data ← (Base58.decode body).mapError (.notBase58 text)
  let point ← unchecked scheme text data
  check scheme point
  pure point

end PublicKey

end ChainCodec
