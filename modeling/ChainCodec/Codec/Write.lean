import ChainCodec.Codec.Check
import ChainCodec.Registry
import ChainCodec.Writer

/-! # Writing canonical values

    `Codec.write` appends the bytes of a canonical value.  A value of another
    shape is refused; what was written before the refusal stays written.

    The recursion follows the codec.  Only an operation codec leaves it, for
    the table behind its registry, and then the value is an array whose
    payload lies one array deeper: the nesting of arrays in the value bounds
    how often that can happen. -/

namespace ChainCodec

namespace Write

/-- The number of elements that follow. -/
def count (n : Nat) : Write Unit :=
  if n < UInt32.size then varint (UInt32.ofNat n) else fail (.collectionTooLong n)

/-- Bytes preceded by their number. -/
def blob (tooLong : Cause) (bs : Bytes) : Write Unit :=
  if bs.length < UInt32.size then do
    varint (UInt32.ofNat bs.length)
    bytes bs
  else fail tooLong

end Write

namespace Codec

/-- What a codec does at an operation codec inside it. -/
abbrev WriteOperation : Type := OperationLink → Value → Write Unit

mutual

def writeWith (op : WriteOperation) : Codec → Value → Write Unit
  | .int t, v => do
      let n ← Check.integer t.name t.least t.greatest v
      Write.fixed t.width.bytes (t.toBits n)
  | .varint, v => do
      let n ← Check.integer "varint32" 0 Check.greatestU32 v
      Write.varint (UInt32.ofNat n.toNat)
  | .bool, v => do
      let b ← Check.canonicalBool v
      Write.byte (if b then 1 else 0)
  | .bytes size, v => do
      let bs ← Check.canonicalBytes v
      let bs ← Check.byteCount size bs
      match size with
      | some _ => Write.bytes bs
      | none => Write.blob .blobTooLong bs
  | .string, v => do
      let s ← Check.canonicalString v
      Write.blob .stringTooLong (Utf8.encode s)
  | .time, v => do
      let n ← Check.integer Check.timeName 0 Check.greatestU32 v
      Write.fixed 4 n.toNat
  | .void, _ => pure ()
  | .vector c, v => do
      let items ← Check.array "vector" v
      Write.count items.length
      let _ ← traverseFrom (fun i item => Write.within (.element i) (writeWith op c item)) 0 items
      pure ()
  | .set c, v => do
      let items ← Check.array "set" v
      Write.count items.length
      let _ ← traverseFrom (fun i item => Write.within (.element i) (writeWith op c item)) 0 items
      pure ()
  | .map c d, v => do
      let entries ← Check.canonicalEntries v
      Write.count entries.length
      let _ ← traverseFrom (fun i entry => do
        let (k, x) ← Check.canonicalEntry i entry
        Write.within (.key i) (writeWith op c k)
        Write.within (.value i) (writeWith op d x)) 0 entries
      pure ()
  | .optional c, v =>
      if v.isNull then Write.byte 0
      else do
        Write.byte 1
        writeWith op c v
  | .pair c d, v => do
      let (a, b) ← Check.pair v
      Write.within (.element 0) (writeWith op c a)
      Write.within (.element 1) (writeWith op d b)
  | .variant label cases, v => do
      let (t, payload) ← Check.tagged v
      let tag ← Check.tag t
      writeCase op label tag cases payload
  | .struct fields _, v => do
      let record ← Check.object v
      writeFields op fields record
  | .objectId space type more, v => do
      let id ← Check.objectId space type more v
      Write.varint (UInt32.ofNat id.inst.toNat)
  | .anyObjectId, v => do
      let id ← Check.anyObjectId v
      let n ← Check.packed id
      Write.fixed 8 n.toNat
  | .publicKey scheme start, v => do
      let point ← Check.publicKey scheme start v
      Write.bytes point
  | .address scheme start, v => do
      let a ← Check.address scheme start v
      Write.bytes a.bytes
  | .operation link, v => op link v

/-- The tag and the payload, if there is a case for the tag. -/
def writeCase (op : WriteOperation) (label : String) (tag : UInt32) :
    List (UInt32 × Codec) → Value → Write Unit
  | [], _ => Write.fail (.unknownTag tag)
  | (t, c) :: rest, payload =>
      if t = tag then do
        Write.varint tag
        Write.within (.variant label tag) (writeWith op c payload)
      else writeCase op label tag rest payload

def writeFields (op : WriteOperation) : List (String × Codec) → Record Value → Write Unit
  | [], _ => pure ()
  | (name, c) :: rest, record => do
      Write.within (.field name) (writeWith op c (Value.field record name))
      writeFields op rest record

end

/-- Writes an operation whose arrays nest less deep than `fuel`. -/
def writeOperation (env : Registries) : (fuel : Nat) → WriteOperation
  | 0, _, _ => Action.fail (.ofRegistry .notInstalled)
  | fuel + 1, link, v => do
      let union ← env.unionOf link.registry
      writeWith (writeOperation env fuel) union v

/-- Appends the bytes of a canonical value. -/
def write (env : Registries) (c : Codec) (raw : Value) : Write Unit :=
  writeWith (fun link v => writeOperation env (v.arrayDepth + 1) link v) c raw

/-- The bytes of a canonical value. -/
def encode (env : Registries) (c : Codec) (raw : Value) : Except Error Bytes :=
  (c.write env raw).run

end Codec

end ChainCodec
