import ChainCodec.Codec.Check

/-! # How checks fail

    Values are looked at only by checks, and a check that fails refuses the
    value.  No check reports a fault of reading, although some share what
    they do with reading: the same functions take keys, addresses and texts
    apart, and what they find wrong becomes a refusal only here.

    Checks do not go into parts, so their errors have no path yet. -/

namespace ChainCodec

/-! ## Where chains fail -/

section Chains

variable {ε ε' α β : Type}

end Chains

namespace Check

variable {α β ε : Type}

/-- Whatever goes wrong is that the value is refused. -/
def Refuses (x : Except Error α) : Prop := ∀ e, x = .error e → e.kind = .validation

/-- Whatever goes wrong is a cause for refusing the value as a whole. -/
def Bare (x : Except Error α) : Prop := ∀ e, x = .error e → ∃ cause, e = .validation cause

theorem Bare.refuses {x : Except Error α} (h : Bare x) : Refuses x := by
  intro e he
  obtain ⟨cause, rfl⟩ := h e he
  rfl

theorem Bare.path_eq_nil {x : Except Error α} (h : Bare x) {e : Error} (he : x = .error e) :
    e.path = [] := by
  obtain ⟨cause, rfl⟩ := h e he
  rfl

/-! ## Chains -/

@[simp] theorem bare_ok (a : α) : Bare (.ok a) := by
  intro e h
  cases h

@[simp] theorem bare_fail (cause : Cause) : Bare (fail cause : Except Error α) := by
  intro e h
  cases h
  exact ⟨cause, rfl⟩

@[simp] theorem bare_mismatch (expected : String) (v : Value) :
    Bare (mismatch expected v : Except Error α) := bare_fail _

/-- Faults of another function that are reported as refusals. -/
@[simp] theorem bare_mapError (x : Except ε α) (cause : ε → Cause) :
    Bare (x.mapError fun f => Error.validation (cause f)) := by
  intro e h
  cases x with
  | error f =>
    cases h
    exact ⟨cause f, rfl⟩
  | ok a => cases h

/-- Two checks in a row name no part, if neither does. -/
theorem Bare.bind {x : Except Error α} {f : α → Except Error β} (hx : Bare x)
    (hf : ∀ a, Bare (f a)) : Bare (x >>= f) := by
  intro e h
  cases x with
  | error e' =>
    cases h
    exact hx e rfl
  | ok a => exact hf a e h

/-! ## Scalars -/

theorem bare_inRange (what : String) (low high n : Int) : Bare (inRange what low high n) := by
  unfold inRange
  split <;> simp

theorem bare_integer (what : String) (low high : Int) (v : Value) :
    Bare (integer what low high v) := by
  unfold integer
  split
  · exact bare_inRange _ _ _ _
  · exact (bare_mapError _ _).bind fun n => bare_inRange _ _ _ n
  · exact bare_mismatch _ _

theorem bare_canonicalInteger (what : String) (v : Value) :
    Bare (canonicalInteger what v) := by
  unfold canonicalInteger
  split <;> simp

theorem bare_tag (v : Value) : Bare (tag v) :=
  (bare_integer _ _ _ v).bind fun _ => bare_ok _

theorem bare_bool (v : Value) : Bare (bool v) := by
  unfold bool
  split <;> simp

theorem bare_canonicalBool (v : Value) : Bare (canonicalBool v) := by
  unfold canonicalBool
  split <;> simp

theorem bare_byteCount (size : Option Nat) (bs : Bytes) : Bare (byteCount size bs) := by
  unfold byteCount
  split
  · exact bare_ok _
  · split <;> simp

theorem bare_bytes (v : Value) : Bare (bytes v) := by
  unfold bytes
  split <;> simp

theorem bare_canonicalBytes (v : Value) : Bare (canonicalBytes v) := by
  unfold canonicalBytes
  split <;> simp

theorem bare_string (v : Value) : Bare (string v) := by
  unfold string
  split <;> simp

theorem bare_canonicalString (v : Value) : Bare (canonicalString v) := by
  unfold canonicalString
  split <;> simp

theorem bare_seconds (v : Value) : Bare (seconds v) := by
  unfold seconds
  split
  · split
    · exact (bare_mapError _ _).bind fun n => bare_inRange _ _ _ n
    · exact bare_integer _ _ _ _
  · exact bare_integer _ _ _ _

/-! ## Object ids, keys and addresses -/

theorem bare_anyInstance (space type : UInt8) (v : Value) :
    Bare (anyInstance space type v) := by
  have hbare : Bare (do
      let n ← integer "object id instance" 0 greatestU32 v
      pure (ObjectId.mk space type (UInt64.ofNat n.toNat))) :=
    (bare_integer _ _ _ v).bind fun _ => bare_ok _
  unfold anyInstance
  split
  · split
    · exact bare_mapError _ _
    · exact hbare
  · exact hbare

/-- All faults of an id are faults of the whole text. -/
theorem bare_objectId (space type : UInt8) (more : List UInt8) (v : Value) :
    Bare (objectId space type more v) := by
  refine (bare_anyInstance space type v).bind fun id => ?_
  split
  · exact bare_fail _
  · split
    · exact bare_fail _
    · split
      · exact bare_fail _
      · exact bare_ok id

theorem bare_anyObjectId (v : Value) : Bare (anyObjectId v) := by
  unfold anyObjectId
  split <;> simp

theorem bare_packed (id : ObjectId) : Bare (packed id) := bare_mapError _ _

theorem bare_publicKey (scheme : KeyScheme) (start : String) (v : Value) :
    Bare (publicKey scheme start v) := by
  unfold publicKey
  split
  · exact bare_mapError _ _
  · exact (bare_mapError _ _).bind fun _ => bare_ok _
  · exact bare_mismatch _ _

theorem bare_address (scheme : AddressScheme) (start : String) (v : Value) :
    Bare (address scheme start v) := by
  unfold address
  split <;> simp

/-! ## Composites -/

theorem bare_array (what : String) (v : Value) : Bare (array what v) := by
  unfold array
  split <;> simp

theorem bare_elements (v : Value) : Bare (elements v) := by
  unfold elements
  split
  · exact bare_ok _
  · exact bare_array _ v

theorem bare_pair (v : Value) : Bare (pair v) := by
  unfold pair
  split <;> simp

theorem bare_tagged (v : Value) : Bare (tagged v) := by
  unfold tagged
  split <;> simp

theorem bare_object (v : Value) : Bare (object v) := by
  unfold object
  split <;> simp

/-- An unknown key is a fault of the record, not of the key. -/
theorem bare_keys (ignoreUnknown : Bool) (names : List String) (fields : Record Value) :
    Bare (keys ignoreUnknown names fields) := by
  unfold keys knownKeys
  split
  · exact bare_ok _
  · split <;> simp

/-- A sequence of checks that name no part names none either. -/
theorem Bare.traverseFrom {f : Nat → α → Except Error β} (hf : ∀ i a, Bare (f i a))
    (start : Nat) (as : List α) : Bare (traverseFrom f start as) := by
  induction as generalizing start with
  | nil => exact bare_ok []
  | cons a as ih =>
    exact (hf start a).bind fun b => (ih (start + 1)).bind fun bs => bare_ok (b :: bs)

theorem bare_entries (textKeys : Bool) (v : Value) : Bare (entries textKeys v) := by
  unfold entries
  split
  · exact bare_ok _
  · split <;> simp
  · refine .traverseFrom (fun i item => ?_) 0 _
    split <;> simp
  · exact bare_mismatch _ _

theorem bare_canonicalEntries (v : Value) : Bare (canonicalEntries v) := by
  unfold canonicalEntries
  split <;> simp

theorem bare_canonicalEntry (index : Nat) (v : Value) : Bare (canonicalEntry index v) := by
  unfold canonicalEntry
  split <;> simp

end Check

end ChainCodec
