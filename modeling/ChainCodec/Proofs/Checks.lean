import ChainCodec.Proofs.Identifiers
import ChainCodec.Proofs.Time

/-! # What checks let through

    Every check of a scalar has two lemmas: what it gives lies in the range
    of the scalar, and the canonical value of the scalar passes.  Checks of
    texts pass the texts that are written for the values in the range. -/

namespace ChainCodec.Check

/-! ## Integers -/

theorem inRange_eq_ok {what : String} {low high n m : Int} :
    inRange what low high n = .ok m ↔ n = m ∧ low ≤ n ∧ n ≤ high := by
  unfold inRange
  split
  · rename_i h
    constructor
    · intro h'
      cases h'
    · intro h
      rcases h with ⟨_, hlow, hhigh⟩
      omega
  · rename_i h
    rw [Except.ok.injEq]
    constructor
    · intro h'
      exact ⟨h', by omega⟩
    · exact And.left

/-- Texts are held to the same range as integers. -/
theorem integer_bounds {what : String} {low high n : Int} {v : Value}
    (h : integer what low high v = .ok n) : low ≤ n ∧ n ≤ high := by
  cases v with
  | int m =>
    obtain ⟨rfl, hm⟩ := inRange_eq_ok.1 h
    exact hm
  | str s =>
    obtain ⟨m, _, h⟩ := Except.bind_eq_ok.1 h
    obtain ⟨rfl, hm⟩ := inRange_eq_ok.1 h
    exact hm
  | null | bool _ | bytes _ | array _ | object _ | lazy _ => cases h

theorem integer_int {what : String} {low high n : Int} (hlow : low ≤ n) (hhigh : n ≤ high) :
    integer what low high (.int n) = .ok n := inRange_eq_ok.2 ⟨rfl, hlow, hhigh⟩

/-- The text of an integer passes as the integer. -/
theorem integer_render {what : String} {low high n : Int} (hlow : low ≤ n) (hhigh : n ≤ high)
    (hleast : Decimal.least ≤ n) (hgreatest : n ≤ Decimal.greatest) :
    integer what low high (.str (Decimal.render n)) = .ok n := by
  refine Except.bind_eq_ok.2 ⟨n, ?_, inRange_eq_ok.2 ⟨rfl, hlow, hhigh⟩⟩
  exact Except.mapError_eq_ok.2 (Decimal.parse_render hleast hgreatest)

/-- Numbers of 32 bits are those from zero to the greatest. -/
theorem exists_uint32 {n : Int} (hlow : 0 ≤ n) (hhigh : n ≤ greatestU32) :
    ∃ m : UInt32, n = m.toNat := by
  have hsize : greatestU32 = 4294967295 := rfl
  refine ⟨UInt32.ofNat n.toNat, ?_⟩
  -- The word is the number modulo its size, which changes nothing in range.
  rw [UInt32.toNat_ofNat']
  omega

theorem uint32_bounds (n : UInt32) : (0 : Int) ≤ n.toNat ∧ (n.toNat : Int) ≤ greatestU32 := by
  have hsize : greatestU32 = 4294967295 := rfl
  have := n.toNat_lt
  omega

theorem integer_uint32 {what : String} (n : UInt32) :
    integer what 0 greatestU32 (.int n.toNat) = .ok (n.toNat : Int) :=
  integer_int (uint32_bounds n).1 (uint32_bounds n).2

theorem tag_uint32 (n : UInt32) : tag (.int n.toNat) = .ok n := by
  refine Except.bind_eq_ok.2 ⟨_, integer_uint32 n, ?_⟩
  simp [pure, Except.pure]

/-- Times fit 32 bits, in whichever form they are given. -/
theorem seconds_bounds {n : Int} {v : Value} (h : seconds v = .ok n) :
    0 ≤ n ∧ n ≤ greatestU32 := by
  unfold seconds at h
  -- A text with a T is a time; any other value goes through the integers.
  split at h
  · split at h
    · obtain ⟨m, _, h⟩ := Except.bind_eq_ok.1 h
      obtain ⟨rfl, hm⟩ := inRange_eq_ok.1 h
      exact hm
    · exact integer_bounds h
  · exact integer_bounds h

theorem seconds_uint32 (n : UInt32) : seconds (.int n.toNat) = .ok (n.toNat : Int) :=
  integer_uint32 n

theorem seconds_of_parse {text : String} {n : UInt32} (hT : text.toList.contains 'T' = true)
    (h : Iso.parse text = .ok n.toNat) : seconds (.str text) = .ok (n.toNat : Int) := by
  simp only [seconds, hT, if_true]
  exact Except.bind_eq_ok.2
    ⟨_, Except.mapError_eq_ok.2 h, inRange_eq_ok.2 ⟨rfl, uint32_bounds n⟩⟩

/-- The text of a time passes as the time. -/
theorem exists_seconds_render (n : UInt32) :
    ∃ text, Iso.render? n.toNat = some text ∧ seconds (.str text) = .ok (n.toNat : Int) := by
  have hlt : (n.toNat : Int) < UInt32.size := Int.ofNat_lt.2 n.toNat_lt_size
  obtain ⟨text, hrender, hT, hparse⟩ := Iso.exists_render (uint32_bounds n).1 hlt
  exact ⟨text, hrender, seconds_of_parse hT hparse⟩

/-! ## Bytes -/

theorem byteCount_eq_ok {size : Option Nat} {bs bs' : Bytes} :
    byteCount size bs = .ok bs' ↔ bs = bs' ∧ ∀ n ∈ size, bs.length = n := by
  cases size with
  | none => simp [byteCount]
  | some n =>
    by_cases h : bs.length = n
    · simp [byteCount, h]
    · simp [byteCount, h]

theorem bytes_encode (bs : Bytes) : bytes (.str (Hex.encode bs)) = .ok bs :=
  Except.mapError_eq_ok.2 (Hex.decode_encode bs)

/-! ## Ids, keys and addresses -/

theorem anyInstance_render (space type : UInt8) (id : ObjectId) :
    anyInstance space type (.str id.render) = .ok id := by
  -- A rendered id has its dots, so it is not taken for a bare instance.
  simp only [anyInstance, ObjectId.contains_dot_render, if_true]
  exact Except.mapError_eq_ok.2 (ObjectId.parse_render id)

/-- An id passes with the space of the codec, one of its types and an instance of
    32 bits. -/
theorem objectId_eq_ok {space type : UInt8} {more : List UInt8} {v : Value} {id : ObjectId} :
    objectId space type more v = .ok id ↔
      anyInstance space type v = .ok id ∧ id.space = space ∧ id.type ∈ type :: more ∧
        id.inst.toNat < UInt32.size := by
  simp only [objectId, Except.bind_eq_ok]
  constructor
  · intro h
    rcases h with ⟨id', h, h'⟩
    -- Space, type and instance are refused one after the other.
    split at h'
    · cases h'
    · split at h'
      · cases h'
      · split at h'
        · cases h'
        · rename_i hspace htype hinst
          obtain rfl := Except.ok.inj h'
          exact ⟨h, Decidable.not_not.1 hspace, Decidable.not_not.1 htype, Nat.lt_of_not_le hinst⟩
  · intro h
    rcases h with ⟨h, hspace, htype, hinst⟩
    refine ⟨id, h, ?_⟩
    rw [if_neg (not_not_intro hspace), if_neg (not_not_intro htype), if_neg (Nat.not_le.2 hinst)]
    rfl

theorem objectId_render {space type : UInt8} {more : List UInt8} {id : ObjectId}
    (hspace : id.space = space) (htype : id.type ∈ type :: more)
    (hinst : id.inst.toNat < UInt32.size) :
    objectId space type more (.str id.render) = .ok id :=
  objectId_eq_ok.2 ⟨anyInstance_render space type id, hspace, htype, hinst⟩

theorem anyObjectId_render (id : ObjectId) : anyObjectId (.str id.render) = .ok id :=
  Except.mapError_eq_ok.2 (ObjectId.parse_render id)

theorem packed_eq_ok {id : ObjectId} {n : UInt64} :
    packed id = .ok n ↔ ObjectId.ofPacked n = id ∧ id.inst.toNat < ObjectId.instanceSize :=
  Except.mapError_eq_ok.trans ObjectId.packed_eq_ok

theorem exists_packed {id : ObjectId} (h : id.inst.toNat < ObjectId.instanceSize) :
    ∃ n, packed id = .ok n := by
  rw [packed, ObjectId.packed, if_pos h]
  exact ⟨_, rfl⟩

/-- Keys are checked whether they come as texts or as bytes. -/
theorem check_of_publicKey {scheme : KeyScheme} {start : String} {v : Value} {point : Bytes}
    (h : publicKey scheme start v = .ok point) : PublicKey.check scheme point = .ok () := by
  cases v with
  | str s =>
    -- The check is the last step of the parser.
    have hparse := Except.mapError_eq_ok.1 h
    simp only [PublicKey.parse, Except.bind_eq_ok] at hparse
    obtain ⟨_, _, _, _, _, _, _, hcheck, hpure⟩ := hparse
    rw [← Except.pure_eq_ok.1 hpure]
    exact hcheck
  | bytes bs =>
    obtain ⟨_, hcheck, hpure⟩ := Except.bind_eq_ok.1 h
    rw [← Except.pure_eq_ok.1 hpure]
    exact Except.mapError_eq_ok.1 hcheck
  | null | bool _ | int _ | array _ | object _ | lazy _ => cases h

theorem publicKey_render {scheme : KeyScheme} {point : Bytes} (start : String)
    (h : PublicKey.check scheme point = .ok ()) :
    publicKey scheme start (.str (PublicKey.render scheme start point)) = .ok point :=
  Except.mapError_eq_ok.2 (PublicKey.parse_render start h)

theorem ofBytes_of_address {scheme : AddressScheme} {start : String} {v : Value} {a : Address}
    (h : address scheme start v = .ok a) : ∃ bs, Address.ofBytes scheme bs = .ok a := by
  cases v with
  | str s => exact Address.ofBytes_of_parse (Except.mapError_eq_ok.1 h)
  | bytes bs => exact ⟨bs, Except.mapError_eq_ok.1 h⟩
  | null | bool _ | int _ | array _ | object _ | lazy _ => cases h

theorem address_render {scheme : AddressScheme} {bs : Bytes} {a : Address} (start : String)
    (h : Address.ofBytes scheme bs = .ok a) :
    address scheme start (.str (a.render start)) = .ok a :=
  Except.mapError_eq_ok.2 (Address.parse_render start h)

/-! ## Keys of records -/

/-- Records pass if all of their names are in the schema. -/
theorem knownKeys_eq_ok {names : List String} {fields : Record Value} :
    knownKeys names fields = .ok () ↔ ∀ name ∈ Record.keys fields, name ∈ names := by
  unfold knownKeys
  -- Keys are known exactly if no unknown one is found.
  cases h : (Record.keys fields).find? fun name => !names.contains name with
  | none =>
    rw [List.find?_eq_none] at h
    simpa using h
  | some name =>
    have hunknown := List.find?_some h
    have hmem := List.mem_of_find?_eq_some h
    constructor
    · intro hfail
      cases hfail
    · intro hknown
      have := hknown name hmem
      simp [this] at hunknown

theorem keys_eq_ok {ignoreUnknown : Bool} {names : List String} {fields : Record Value} :
    keys ignoreUnknown names fields = .ok () ↔
      ignoreUnknown = true ∨ ∀ name ∈ Record.keys fields, name ∈ names := by
  unfold keys
  by_cases hignore : ignoreUnknown = true
  · simp [hignore]
  · rw [if_neg hignore, knownKeys_eq_ok]
    simp [hignore]

end ChainCodec.Check
