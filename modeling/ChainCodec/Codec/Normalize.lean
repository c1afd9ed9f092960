import ChainCodec.Codec.Order
import ChainCodec.Codec.Write
import ChainCodec.Value.Json

/-! # Canonical values

    `Codec.normalize` accepts the spellings that a value may have, lazy parts
    included, and gives the one canonical value that `Codec.write` encodes.
    Integers may be decimal text, bytes hexadecimal text, times and ids text
    or numbers; sets and maps come in any order, and maps over text keys as
    records as well.

    An operation codec in zero-fee mode first completes its input: an
    operation without a fee, or with a null one, gets a fee of zero. -/

namespace ChainCodec

/-! ## Fees -/

namespace Fee

def fieldName : String := "fee"

def zero (asset : String) : Value := .object [("asset_id", .str asset), ("amount", .int 0)]

/-- Whether the fields of an operation name a fee.  A lazy fee counts as
    given, whatever it stands for. -/
def isGiven (fields : Record Value) : Bool :=
  match Record.get? fieldName fields with
  | some fee => !fee.isNull
  | none => false

/-- The fields with a zero fee, unless they name one. -/
def complete (asset : String) (fields : Record Value) : Record Value :=
  if isGiven fields then fields else Record.insert fieldName (zero asset) fields

/-- An operation with its fee filled in.  What is not a pair of an id and an
    object is left alone. -/
def fillIn (asset : String) (v : Value) : Value :=
  match v.asPair? with
  | none => v
  | some (id, payload) =>
      match payload.resolve with
      | .object fields => .array [id, .object (complete asset fields)]
      | _ => v

end Fee

namespace Codec

abbrev NormalizeOperation : Type := OperationLink → Value → Except Error Value

/-- Gives the bytes that order the elements of sets and the keys of maps. -/
abbrev EncodeElement : Type := Codec → Value → Except Error Bytes

mutual

def normalizeWith (bytesOf : EncodeElement) (op : NormalizeOperation) :
    Codec → Value → Except Error Value
  | .int t, v => do
      let n ← Check.integer t.name t.least t.greatest v.resolve
      pure (.int n)
  | .varint, v => do
      let n ← Check.integer "varint32" 0 Check.greatestU32 v.resolve
      pure (.int n)
  | .bool, v => do
      let b ← Check.bool v.resolve
      pure (.bool b)
  | .bytes size, v => do
      let bs ← Check.bytes v.resolve
      let bs ← Check.byteCount size bs
      pure (.bytes bs)
  | .string, v => do
      let s ← Check.string v.resolve
      pure (.str s)
  | .time, v => do
      let n ← Check.seconds v.resolve
      pure (.int n)
  | .void, v =>
      match v.resolve with
      | .null => .ok .null
      | .object [] => .ok .null
      | w => Check.mismatch "void as null or empty object" w
  | .vector c, v => do
      let items ← Check.array "vector" v.resolve
      let raws ← traverseFrom (fun i item =>
        Check.within (.element i) (normalizeWith bytesOf op c item)) 0 items
      pure (.array raws)
  | .set c, v => do
      let items ← Check.elements v.resolve
      let entries ← traverseFrom (fun i item => do
        let raw ← Check.within (.element i) (normalizeWith bytesOf op c item)
        let bs ← Check.within (.element i) (bytesOf c raw)
        pure (bs, raw)) 0 items
      let sorted ← (Order.sortUnique entries).mapError fun bs => .validation (.duplicateElement bs)
      pure (.array sorted)
  | .map c d, v => do
      let pairs ← Check.entries c.hasTextForm v.resolve
      let entries ← traverseFrom (fun i (p : Value × Value) => do
        let key ← Check.within (.key i) (normalizeWith bytesOf op c p.1)
        let value ← Check.within (.value i) (normalizeWith bytesOf op d p.2)
        let bs ← Check.within (.key i) (bytesOf c key)
        pure (bs, Value.array [key, value])) 0 pairs
      let sorted ← (Order.sortUnique entries).mapError fun bs => .validation (.duplicateKey bs)
      pure (.array sorted)
  | .optional c, v =>
      if v.resolve.isNull then .ok .null else normalizeWith bytesOf op c v.resolve
  | .pair c d, v => do
      let (a, b) ← Check.pair v.resolve
      let a ← Check.within (.element 0) (normalizeWith bytesOf op c a)
      let b ← Check.within (.element 1) (normalizeWith bytesOf op d b)
      pure (.array [a, b])
  | .variant label cases, v => do
      let (t, payload) ← Check.tagged v.resolve
      let tag ← Check.tag t.resolve
      let payload ← normalizeCase bytesOf op label tag cases payload
      pure (.array [.int tag.toNat, payload])
  | .struct fields ignoreUnknown, v => do
      let record ← Check.object v.resolve
      Check.keys ignoreUnknown (fields.map Prod.fst) record
      let raws ← normalizeFields bytesOf op fields record
      pure (.object (Record.ofList raws))
  | .objectId space type more, v => do
      let id ← Check.objectId space type more v.resolve
      pure (.str id.render)
  | .anyObjectId, v => do
      let id ← Check.anyObjectId v.resolve
      let _ ← Check.packed id
      pure (.str id.render)
  | .publicKey scheme start, v => do
      let point ← Check.publicKey scheme start v.resolve
      pure (.str (PublicKey.render scheme start point))
  | .address scheme start, v => do
      let a ← Check.address scheme start v.resolve
      pure (.str (a.render start))
  | .operation link, v => op link v

def normalizeCase (bytesOf : EncodeElement) (op : NormalizeOperation) (label : String)
    (tag : UInt32) : List (UInt32 × Codec) → Value → Except Error Value
  | [], _ => Check.fail (.unknownTag tag)
  | (t, c) :: rest, payload =>
      if t = tag then Check.within (.variant label tag) (normalizeWith bytesOf op c payload)
      else normalizeCase bytesOf op label tag rest payload

/-- The fields in the order of the schema; one that is missing is null. -/
def normalizeFields (bytesOf : EncodeElement) (op : NormalizeOperation) :
    List (String × Codec) → Record Value → Except Error (List (String × Value))
  | [], _ => .ok []
  | (name, c) :: rest, record => do
      let raw ← Check.within (.field name)
        (normalizeWith bytesOf op c (Value.field record name))
      let raws ← normalizeFields bytesOf op rest record
      pure ((name, raw) :: raws)

end

/-- What an operation codec passes on to its table. -/
def operationInput (link : OperationLink) (v : Value) : Value :=
  if link.zeroFee then Fee.fillIn link.feeAsset v.resolve else v

/-- Normalizes an operation whose arrays nest less deep than `fuel`. -/
def normalizeOperation (env : Registries) : (fuel : Nat) → NormalizeOperation
  | 0, _, _ => .error (.ofRegistry .notInstalled)
  | fuel + 1, link, v => do
      let union ← env.unionOf link.registry
      normalizeWith (encode env) (normalizeOperation env fuel) union (operationInput link v)

/-- The canonical value of `v`. -/
def normalize (env : Registries) (c : Codec) (v : Value) : Except Error Value :=
  normalizeWith (encode env) (fun link v => normalizeOperation env (v.arrayDepth + 1) link v) c v

/-- Whether `v` has a canonical value. -/
def validate (env : Registries) (c : Codec) (v : Value) : Except Error Unit := do
  let _ ← c.normalize env v
  pure ()

/-- The bytes of the canonical value of `v`. -/
def serialize (env : Registries) (c : Codec) (v : Value) : Except Error Bytes := do
  let raw ← c.normalize env v
  c.encode env raw

end Codec

end ChainCodec
