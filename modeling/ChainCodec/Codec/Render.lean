import ChainCodec.Codec.Check
import ChainCodec.Registry
import ChainCodec.Value.Json

/-! # Canonical values as JSON

    `Codec.render` gives the JSON form of a canonical value that a node of the
    chain would give: 64-bit integers and bytes as text, times as date-times,
    and struct fields that are null left out. -/

namespace ChainCodec.Codec

/-- What a codec does at an operation codec inside it. -/
abbrev RenderOperation : Type := OperationLink → Value → Except Error Json

mutual

def renderWith (op : RenderOperation) : Codec → Value → Except Error Json
  | .int t, v => do
      let n ← Check.canonicalInteger t.name v
      let n := t.wrap n
      pure (if t.isText then .str (Decimal.render n) else .int n)
  | .varint, v => .ok v.toJson
  | .bool, v => .ok v.toJson
  | .bytes _, v => do
      let bs ← Check.canonicalBytes v
      pure (.str (Hex.encode bs))
  | .string, v => .ok v.toJson
  | .time, v => do
      let n ← Check.canonicalInteger Check.timeName v
      match Iso.render? n with
      | some text => pure (.str text)
      | none => Check.fail (.timeOutOfRange n)
  | .void, _ => .ok (.obj [])
  | .vector c, v => do
      let items ← Check.array "vector" v
      let js ← traverseFrom (fun i item =>
        Check.within (.element i) (renderWith op c item)) 0 items
      pure (.arr js)
  | .set c, v => do
      let items ← Check.array "set" v
      let js ← traverseFrom (fun i item =>
        Check.within (.element i) (renderWith op c item)) 0 items
      pure (.arr js)
  | .map c d, v => do
      let entries ← Check.canonicalEntries v
      let js ← traverseFrom (fun i entry => do
        let (k, x) ← Check.canonicalEntry i entry
        let key ← Check.within (.key i) (renderWith op c k)
        let value ← Check.within (.value i) (renderWith op d x)
        pure (Json.arr [key, value])) 0 entries
      pure (.arr js)
  | .optional c, v => if v.isNull then .ok .null else renderWith op c v
  | .pair c d, v => do
      let (a, b) ← Check.pair v
      let a ← renderWith op c a
      let b ← renderWith op d b
      pure (.arr [a, b])
  | .variant label cases, v => do
      let (t, payload) ← Check.tagged v
      let tag ← Check.tag t
      let payload ← renderCase op label tag cases payload
      pure (.arr [.int tag.toNat, payload])
  | .struct fields _, v => do
      let record ← Check.object v
      let js ← renderFields op fields record
      pure (.obj (Record.ofList js))
  | .objectId space type more, v => do
      let id ← Check.objectId space type more v
      pure (.str id.render)
  | .anyObjectId, v => do
      let id ← Check.anyObjectId v
      pure (.str id.render)
  | .publicKey _ _, v =>
      match v with
      | .str text => .ok (.str text)
      | v => Check.mismatch "canonical public key string" v
  | .address scheme start, v => do
      let a ← Check.address scheme start v
      pure (.str (a.render start))
  | .operation link, v => op link v

def renderCase (op : RenderOperation) (label : String) (tag : UInt32) :
    List (UInt32 × Codec) → Value → Except Error Json
  | [], _ => Check.fail (.unknownTag tag)
  | (t, c) :: rest, payload =>
      if t = tag then Check.within (.variant label tag) (renderWith op c payload)
      else renderCase op label tag rest payload

/-- The fields that are not null, in the order of the schema. -/
def renderFields (op : RenderOperation) :
    List (String × Codec) → Record Value → Except Error (List (String × Json))
  | [], _ => .ok []
  | (name, c) :: rest, record =>
      if (Value.field record name).isNull then renderFields op rest record
      else do
        let j ← Check.within (.field name) (renderWith op c (Value.field record name))
        let js ← renderFields op rest record
        pure ((name, j) :: js)

end

/-- Renders an operation whose arrays nest less deep than `fuel`. -/
def renderOperation (env : Registries) : (fuel : Nat) → RenderOperation
  | 0, _, _ => .error (.ofRegistry .notInstalled)
  | fuel + 1, link, v => do
      let union ← env.unionOf link.registry
      renderWith (renderOperation env fuel) union v

/-- The JSON form of a canonical value. -/
def render (env : Registries) (c : Codec) (raw : Value) : Except Error Json :=
  renderWith (fun link v => renderOperation env (v.arrayDepth + 1) link v) c raw

end ChainCodec.Codec
