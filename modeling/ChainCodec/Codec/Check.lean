import ChainCodec.Action
import ChainCodec.Error

/-! # Checks on values

    The checks by which codecs look at a value: its shape, its range, and
    for scalars with several spellings what it denotes.  None of them
    resolves lazy values; normalization does that first, and canonical values
    have none. -/

namespace ChainCodec.Check

variable {α : Type}

def fail (cause : Cause) : Except Error α := .error (.validation cause)

/-- A value of the wrong shape. -/
def mismatch (expected : String) (v : Value) : Except Error α := fail (.mismatch expected v.kind)

/-- Marks errors as being about a part. -/
def within (c : Context) (x : Except Error α) : Except Error α := x.mapError (Error.within c)

/-! ## Integers -/

def decimal (text : String) : Except Error Int :=
  (Decimal.parse text).mapError fun f => .validation (.decimal f)

def inRange (what : String) (low high n : Int) : Except Error Int :=
  if n < low ∨ high < n then fail (.outOfRange n what low high) else .ok n

/-- An integer, or its decimal text, from `low` to `high`. -/
def integer (what : String) (low high : Int) : Value → Except Error Int
  | .int n => inRange what low high n
  | .str s => do inRange what low high (← decimal s)
  | v => mismatch s!"{what} as integer or decimal string" v

def canonicalInteger (what : String) : Value → Except Error Int
  | .int n => .ok n
  | v => mismatch s!"canonical {what} integer" v

def greatestU32 : Int := (UInt32.size : Int) - 1

/-- The tag of a tagged union. -/
def tag (v : Value) : Except Error UInt32 := do
  let n ← integer "static variant key" 0 greatestU32 v
  pure (UInt32.ofNat n.toNat)

/-! ## Other scalars -/

/-- A Boolean, or zero or one. -/
def bool : Value → Except Error Bool
  | .bool b => .ok b
  | .int 0 => .ok false
  | .int 1 => .ok true
  | v => mismatch "bool" v

def canonicalBool : Value → Except Error Bool
  | .bool b => .ok b
  | v => mismatch "canonical bool" v

def byteCount (size : Option Nat) (bs : Bytes) : Except Error Bytes :=
  match size with
  | none => .ok bs
  | some n => if bs.length = n then .ok bs else fail (.byteCount n bs.length)

/-- Bytes, or their hexadecimal text. -/
def bytes : Value → Except Error Bytes
  | .bytes bs => .ok bs
  | .str s => (Hex.decode s).mapError fun f => .validation (.hex f)
  | v => mismatch "bytes or hex string" v

def canonicalBytes : Value → Except Error Bytes
  | .bytes bs => .ok bs
  | v => mismatch "canonical bytes" v

/-- A string, or its UTF-8 bytes. -/
def string : Value → Except Error String
  | .str s => .ok s
  | .bytes bs => (Utf8.decode bs).mapError fun f => .validation (.utf8 f)
  | v => mismatch "string" v

def canonicalString : Value → Except Error String
  | .str s => .ok s
  | v => mismatch "canonical string" v

def timeName : String := "time_point_sec"

/-- Seconds, or a date-time text, which is told by the `T` in it. -/
def seconds (v : Value) : Except Error Int :=
  match v with
  | .str s =>
      if s.toList.contains 'T' then do
        let n ← (Iso.parse s).mapError fun f => .validation (.timeText s f)
        inRange timeName 0 greatestU32 n
      else integer timeName 0 greatestU32 v
  | v => integer timeName 0 greatestU32 v

/-! ## Object ids, keys and addresses -/

/-- The text of an id, or a bare instance, which takes the first type. -/
def anyInstance (space type : UInt8) (v : Value) : Except Error ObjectId :=
  let bare : Except Error ObjectId := do
    let n ← integer "object id instance" 0 greatestU32 v
    pure ⟨space, type, UInt64.ofNat n.toNat⟩
  match v with
  | .str s =>
      if s.toList.contains '.' then
        (ObjectId.parse s).mapError fun f => .validation (.objectId f)
      else bare
  | _ => bare

/-- An id of the space and one of the types whose instance fits 32 bits. -/
def objectId (space type : UInt8) (more : List UInt8) (v : Value) : Except Error ObjectId := do
  let id ← anyInstance space type v
  if id.space ≠ space then fail (.wrongSpace id space)
  else if ¬ id.type ∈ type :: more then fail (.wrongType id (type :: more))
  else if UInt32.size ≤ id.inst.toNat then fail (.wideInstance id)
  else pure id

/-- The text of an id of any space and type. -/
def anyObjectId : Value → Except Error ObjectId
  | .str s => (ObjectId.parse s).mapError fun f => .validation (.objectId f)
  | v => mismatch "object id as \"space.type.instance\"" v

def packed (id : ObjectId) : Except Error UInt64 :=
  id.packed.mapError fun f => .validation (.objectId f)

/-- The text of a key, or its bytes. -/
def publicKey (scheme : KeyScheme) (start : String) : Value → Except Error Bytes
  | .str s => (PublicKey.parse scheme start s).mapError fun f => .validation (.publicKey f)
  | .bytes bs => do
      (PublicKey.check scheme bs).mapError fun f => .validation (.publicKey f)
      pure bs
  | v => mismatch "public key as string or bytes" v

/-- The text of an address, or its bytes. -/
def address (scheme : AddressScheme) (start : String) : Value → Except Error Address
  | .str s => (Address.parse scheme start s).mapError fun f => .validation (.address f)
  | .bytes bs => (Address.ofBytes scheme bs).mapError fun f => .validation (.address f)
  | v => mismatch "address as string or bytes" v

/-! ## Composites -/

def array (what : String) : Value → Except Error (List Value)
  | .array items => .ok items
  | v => mismatch s!"{what} as array" v

theorem array_eq_ok {what : String} {v : Value} {items : List Value} :
    array what v = .ok items ↔ v = .array items := by
  cases v <;> simp [array, mismatch, fail]

/-- The elements of a set, of which null has none. -/
def elements (v : Value) : Except Error (List Value) :=
  if v.isNull then .ok [] else array "set" v

/-- Elements are parts of the value that they are taken from. -/
theorem arrayDepth_elements_le {v : Value} {items : List Value} (h : elements v = .ok items)
    {item : Value} (hitem : item ∈ items) : item.arrayDepth ≤ v.arrayDepth := by
  unfold elements at h
  split at h
  · cases h
    cases hitem
  · rw [array_eq_ok.1 h]
    exact Nat.le_of_lt (Value.arrayDepth_lt_array hitem)

def pair (v : Value) : Except Error (Value × Value) :=
  match v.asPair? with
  | some p => .ok p
  | none => mismatch "pair as 2-element array" v

theorem pair_eq_ok {v : Value} {p : Value × Value} : pair v = .ok p ↔ v.asPair? = some p := by
  cases h : v.asPair? <;> simp [pair, h, mismatch, fail]

/-- The tag and the payload of a tagged union, neither looked into. -/
def tagged (v : Value) : Except Error (Value × Value) :=
  match v.asPair? with
  | some p => .ok p
  | none => mismatch "static variant as [tag, payload]" v

theorem tagged_eq_ok {v : Value} {p : Value × Value} : tagged v = .ok p ↔ v.asPair? = some p := by
  cases h : v.asPair? <;> simp [tagged, h, mismatch, fail]

def object : Value → Except Error (Record Value)
  | .object fields => .ok fields
  | v => mismatch "object" v

theorem object_eq_ok {v : Value} {fields : Record Value} :
    object v = .ok fields ↔ v = .object fields := by
  cases v <;> simp [object, mismatch, fail]

/-- Refuses the first key that a schema does not name. -/
def knownKeys (names : List String) (fields : Record Value) : Except Error Unit :=
  match fields.keys.find? fun k => !names.contains k with
  | some k => fail (.unknownKey k)
  | none => .ok ()

/-- The keys of an object, which need not be known if unknown ones are
    dropped. -/
def keys (ignoreUnknown : Bool) (names : List String) (fields : Record Value) :
    Except Error Unit :=
  if ignoreUnknown then .ok () else knownKeys names fields

/-- The entries of a map: none, a record if keys have a text form, or an
    array of pairs, all of which are looked at before any is used. -/
def entries (textKeys : Bool) : Value → Except Error (List (Value × Value))
  | .null => .ok []
  | .object fields =>
      if textKeys then .ok (fields.map fun f => (.str f.1, f.2)) else fail .recordKeys
  | .array items =>
      traverseFrom (fun i item =>
        match item.resolve.asPair? with
        | some p => .ok p
        | none => fail (.mapEntry i)) 0 items
  | v => mismatch "map as array of pairs or record" v

/-- Entries are parts of the value that they are taken from. -/
theorem arrayDepth_entries_le {textKeys : Bool} {v : Value} {ps : List (Value × Value)}
    (h : entries textKeys v = .ok ps) {p : Value × Value} (hp : p ∈ ps) :
    p.1.arrayDepth ≤ v.arrayDepth ∧ p.2.arrayDepth ≤ v.arrayDepth := by
  cases v with
  | null => cases h; cases hp
  | object fields =>
    cases textKeys with
    | false => cases h
    | true =>
      cases h
      obtain ⟨f, hf, rfl⟩ := List.mem_map.1 hp
      have := Value.arrayDepth_le_fields hf
      simp only [Value.arrayDepth]
      omega
  | array items =>
    obtain ⟨i, item, hitem, hf⟩ := exists_of_mem_traverseFrom h hp
    have hlt := Value.arrayDepth_lt_array hitem
    cases hq : item.resolve.asPair? with
    | none => rw [hq] at hf; cases hf
    | some q =>
      rw [hq] at hf
      cases hf
      have := Value.arrayDepth_lt_of_asPair? hq
      rw [Value.arrayDepth_resolve] at this
      omega
  | bool _ | int _ | str _ | bytes _ | lazy _ => cases h

def canonicalEntries : Value → Except Error (List Value)
  | .array items => .ok items
  | v => mismatch "canonical map array" v

theorem canonicalEntries_eq_ok {v : Value} {items : List Value} :
    canonicalEntries v = .ok items ↔ v = .array items := by
  cases v <;> simp [canonicalEntries, mismatch, fail]

def canonicalEntry (index : Nat) (v : Value) : Except Error (Value × Value) :=
  match v.asPair? with
  | some p => .ok p
  | none => fail (.canonicalMapEntry index)

theorem canonicalEntry_eq_ok {index : Nat} {v : Value} {p : Value × Value} :
    canonicalEntry index v = .ok p ↔ v.asPair? = some p := by
  cases h : v.asPair? <;> simp [canonicalEntry, h, fail]

end ChainCodec.Check
