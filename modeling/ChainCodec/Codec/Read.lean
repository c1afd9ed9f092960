import ChainCodec.Codec.Order
import ChainCodec.Reader
import ChainCodec.Registry

/-! # Reading values

    `Codec.read` takes one value from a reader and gives it back in canonical
    form.  Sets and maps are accepted in any order on the wire; they are put
    in order, and checked for repetition, by the bytes that were read.

    The recursion follows the codec.  Only an operation codec leaves it, and
    each operation opens one more tagged union, so the number of unions that
    may still be opened bounds how often that can happen. -/

namespace ChainCodec

namespace Read

/-- A result that needs no bytes. -/
def ofResult {α : Type} (x : Except Error α) : Read α := Action.ofExcept (x.mapError Halt.error)

/-- A run of bytes preceded by its length. -/
def blob : Read Bytes := do
  let n ← varint
  take n.toNat

/-- Entries put in order, unless two of them have the same bytes. -/
def ordered (duplicate : Bytes → Cause) (entries : List Order.Entry) : Read Value := do
  let values ← ofResult ((Order.sortUnique entries).mapError fun bs => .decode (duplicate bs))
  pure (.array values)

/-- Bytes whose length is fixed, or read first. -/
def sized : Option Nat → Read Bytes
  | some n => take n
  | none => blob

def bool : Read Bool := do
  let b ← byte
  if b = 0 then pure false
  else if b = 1 then pure true
  else fail (.decode (.boolByte b))

def string : Read String := do
  let bs ← blob
  ofResult ((Utf8.decode bs).mapError fun f => .decode (.utf8 f))

/-- The text of a key. -/
def publicKey (scheme : KeyScheme) (start : String) : Read String := do
  let point ← take scheme.keyLength
  ofResult ((PublicKey.check scheme point).mapError fun f => .decode (.publicKey f))
  pure (PublicKey.render scheme start point)

/-- The text of an address. -/
def address (scheme : AddressScheme) (start : String) : Read String := do
  let bs ← take scheme.byteLength
  let a ← ofResult ((Address.ofBytes scheme bs).mapError fun f => .decode (.address f))
  pure (a.render start)

/-- An id of one space.  Only the instance is on the wire, so there must be
    no choice of types. -/
def objectId (space type : UInt8) (more : List UInt8) : Read ObjectId :=
  if more.isEmpty then do
    let n ← varint
    pure ⟨space, type, n.toUInt64⟩
  else fail (.decode (.ambiguousType (type :: more)))

end Read

namespace Codec

/-- What a codec does at an operation codec inside it. -/
abbrev ReadOperation : Type := OperationLink → Read Value

mutual

def readWith (op : ReadOperation) : Codec → Read Value
  | .int t => do
      let n ← Read.fixed t.width.bytes
      pure (.int (t.wrap n))
  | .varint => do
      let n ← Read.varint
      pure (.int n.toNat)
  | .bool => do
      let b ← Read.bool
      pure (.bool b)
  | .bytes size => do
      let bs ← Read.sized size
      pure (.bytes bs)
  | .string => do
      let s ← Read.string
      pure (.str s)
  | .time => do
      let n ← Read.fixed 4
      pure (.int n)
  | .void => pure .null
  | .vector c => do
      let n ← Read.varint
      let items ← repeatFrom (fun i => Read.within (.element i) (readWith op c)) 0 n.toNat
      pure (.array items)
  | .set c => do
      let n ← Read.varint
      let entries ← repeatFrom (fun i => do
        let start ← Read.position
        let item ← Read.within (.element i) (readWith op c)
        let bs ← Read.since start
        pure (bs, item)) 0 n.toNat
      Read.ordered .duplicateElement entries
  | .map c d => do
      let n ← Read.varint
      let entries ← repeatFrom (fun i => do
        let start ← Read.position
        let key ← Read.within (.key i) (readWith op c)
        let bs ← Read.since start
        let value ← Read.within (.value i) (readWith op d)
        pure (bs, Value.array [key, value])) 0 n.toNat
      Read.ordered .duplicateKey entries
  | .optional c => do
      let b ← Read.byte
      if b = 0 then pure .null
      else if b = 1 then readWith op c
      else Read.fail (.decode (.optionalFlag b))
  | .pair c d => do
      let a ← Read.within (.element 0) (readWith op c)
      let b ← Read.within (.element 1) (readWith op d)
      pure (.array [a, b])
  | .variant label cases => do
      let tag ← Read.varint
      let payload ← readCase op label tag cases
      pure (.array [.int tag.toNat, payload])
  | .struct fields _ => do
      let values ← readFields op fields
      pure (.object (Record.ofList values))
  | .objectId space type more => do
      let id ← Read.objectId space type more
      pure (.str id.render)
  | .anyObjectId => do
      let n ← Read.fixed 8
      pure (.str (ObjectId.ofPacked (UInt64.ofNat n)).render)
  | .publicKey scheme start => do
      let text ← Read.publicKey scheme start
      pure (.str text)
  | .address scheme start => do
      let text ← Read.address scheme start
      pure (.str text)
  | .operation link => op link

/-- The payload, if there is a case for the tag and room for one more open
    union. -/
def readCase (op : ReadOperation) (label : String) (tag : UInt32) :
    List (UInt32 × Codec) → Read Value
  | [] => Read.fail (.decode (.unknownTag tag))
  | (t, c) :: rest =>
      if t = tag then Read.nested (Read.within (.variant label tag) (readWith op c))
      else readCase op label tag rest

def readFields (op : ReadOperation) : List (String × Codec) → Read (List (String × Value))
  | [] => pure []
  | (name, c) :: rest => do
      let v ← Read.within (.field name) (readWith op c)
      let vs ← readFields op rest
      pure ((name, v) :: vs)

end

/-- Reads an operation where fewer than `fuel` unions may still be opened. -/
def readOperation (env : Registries) : (fuel : Nat) → ReadOperation
  | 0, _ => Read.fail (.ofRegistry .notInstalled)
  | fuel + 1, link => do
      let union ← Read.ofResult (env.unionOf link.registry)
      readWith (readOperation env fuel) union

/-- Reads one value. -/
def read (env : Registries) (c : Codec) : Read Value :=
  readWith (fun link r => readOperation env (r.room + 1) link r) c

/-- Reads one value that takes up all the bytes. -/
def deserialize (env : Registries) (c : Codec) (bs : Bytes) : Except Halt Value :=
  let whole : Read Value := do
    let v ← c.read env
    Read.finish
    pure v
  (whole (Reader.ofBytes bs)).1

/-- Reads one value at an offset, and gives the offset after it. -/
def readAt (env : Registries) (c : Codec) (bs : Bytes) (offset : Nat) :
    Except Halt (Value × Nat) :=
  match Reader.at? bs offset with
  | .error e => .error (.error e)
  | .ok r =>
      match c.read env r with
      | (.ok v, r') => .ok (v, r'.cursor)
      | (.error e, _) => .error e

end Codec

end ChainCodec
