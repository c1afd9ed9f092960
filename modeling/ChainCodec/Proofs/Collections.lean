import ChainCodec.Proofs.Fees
import Mathlib.Data.List.Perm.Basic

/-! # What becomes of arrays and objects

    A codec normalizes an array item by item and collects the results, or it
    takes the array for two items that have codecs of their own.  An object
    has fields, or it is a map that was given as a record.  The lemmas below
    say so for all codecs at once, those inside optional ones included. -/

namespace ChainCodec.Codec

variable {env : Registries} {c d : Codec} {v w raw : Value} {items : List Value}

/-- A codec looks at what a lazy value stands for. -/
theorem normalize_resolve (c : Codec) (v : Value) :
    normalize env c v.resolve = normalize env c v := by
  have hunion (label : String) (table : CaseTable) (v : Value) :
      normalize env (.variant label table) v.resolve = normalize env (.variant label table) v := by
    simp only [normalize, normalizeWith, Value.resolve_resolve]
  cases c with
  | operation link =>
    rw [normalize_operation, normalize_operation]
    refine Except.bind_congr_ok fun union htable => ?_
    obtain ⟨table, _, rfl⟩ := Registries.unionOf_eq_ok.1 htable
    -- Fees are filled into what the value stands for anyway.
    unfold operationInput
    split
    · rw [Value.resolve_resolve]
    · exact hunion _ table v
  | _ => simp only [normalize, normalizeWith, Value.resolve_resolve]

theorem normalize_optional_of_present (h : v.resolve.isNull = false) :
    normalize env (.optional c) v = normalize env c v := by
  rw [normalize_optional, h, normalize_resolve]
  rfl

/-! ## Items that are collected -/

/-- The codec that looks at each item of an array. -/
def element? : Codec → Option Codec
  | .vector c | .set c => some c
  | .map c d => some (.pair c d)
  | .optional c => c.element?
  | _ => none

theorem DistinctNames.element? (c : Codec) {e : Codec} (h : DistinctNames env c)
    (he : c.element? = some e) : DistinctNames env e := by
  match c with
  | .vector c =>
    obtain rfl := Option.some.inj he
    exact h.inside .vector
  | .set c =>
    obtain rfl := Option.some.inj he
    exact h.inside .set
  | .map c d =>
    obtain rfl := Option.some.inj he
    -- The pair of key and value is no codec of its own in the map.
    exact h.pair_of_map
  | .optional c => exact DistinctNames.element? c (h.inside .optional) he
  | .int _ | .varint | .bool | .bytes _ | .string | .time | .void | .pair .. | .variant ..
  | .struct .. | .objectId .. | .anyObjectId | .publicKey .. | .address .. | .operation _ =>
    cases he

/-- The array of the values in the order of their keys. -/
def SortedBy (R : Value → Bytes → Prop) (raws : List Value) (raw : Value) : Prop :=
  ∃ entries sorted, List.Forall₂ (fun item (e : Order.Entry) => e.2 = item ∧ R item e.1)
    raws entries ∧ Order.sortUnique entries = .ok sorted ∧ raw = .array sorted

theorem SortedBy.perm {R : Value → Bytes → Prop} {raws raws' : List Value}
    (h : SortedBy R raws raw) (hperm : raws.Perm raws') : SortedBy R raws' raw := by
  obtain ⟨entries, sorted, hentries, hsorted, rfl⟩ := h
  -- The entries move along with the values.
  obtain ⟨entries', hentries', hperm'⟩ := List.perm_comp_forall₂ hperm.symm hentries
  exact ⟨entries', sorted, hentries', (Order.sortUnique_perm hperm').trans hsorted, rfl⟩

/-- What becomes of an array whose items have these canonical values. -/
def Collects (env : Registries) : Codec → List Value → Value → Prop
  | .vector _, raws, raw => raw = .array raws
  | .set c, raws, raw => SortedBy (fun item key => encode env c item = .ok key) raws raw
  | .map c _, raws, raw =>
      SortedBy (fun item key => ∃ p, item = Value.entry p ∧ encode env c p.1 = .ok key) raws raw
  | .optional c, raws, raw => c.Collects env raws raw
  | _, _, _ => False

/-- Whether the items of an array are put in order. -/
def sorts : Codec → Bool
  | .set _ | .map .. => true
  | .optional c => c.sorts
  | _ => false

theorem Collects.perm (c : Codec) (hsorts : c.sorts = true) {raws raws' : List Value}
    (hperm : raws.Perm raws') (h : c.Collects env raws raw) : c.Collects env raws' raw := by
  match c with
  | .set c => exact SortedBy.perm h hperm
  | .map c d => exact SortedBy.perm h hperm
  | .optional c => exact Collects.perm c hsorts hperm h
  | .int _ | .varint | .bool | .bytes _ | .string | .time | .void | .vector _ | .pair ..
  | .variant .. | .struct .. | .objectId .. | .anyObjectId | .publicKey .. | .address ..
  | .operation _ => cases hsorts

theorem exists_element?_of_sorts (c : Codec) (h : c.sorts = true) : ∃ e, c.element? = some e := by
  match c with
  | .set c => exact ⟨c, rfl⟩
  | .map c d => exact ⟨.pair c d, rfl⟩
  | .optional c => exact exists_element?_of_sorts c h
  | .int _ | .varint | .bool | .bytes _ | .string | .time | .void | .vector _ | .pair ..
  | .variant .. | .struct .. | .objectId .. | .anyObjectId | .publicKey .. | .address ..
  | .operation _ => cases h

theorem normalize_set_array_eq_ok :
    normalize env (.set c) (.array items) = .ok raw ↔
      ∃ raws, List.Forall₂ (fun item raw => normalize env c item = .ok raw) items raws ∧
        SortedBy (fun item key => encode env c item = .ok key) raws raw := by
  have hentry : ∀ (item : Value) (e : Order.Entry),
      (normalize env c item = .ok e.2 ∧ encode env c e.2 = .ok e.1) ↔
        ∃ raw, normalize env c item = .ok raw ∧ e.2 = raw ∧ encode env c raw = .ok e.1 := by
    intro item e
    constructor
    · intro h
      exact ⟨e.2, h.1, rfl, h.2⟩
    · intro h
      rcases h with ⟨_, h, rfl, hkey⟩
      exact ⟨h, hkey⟩
  have hitems : Check.elements (Value.array items).resolve = .ok items := rfl
  rw [normalize_set_eq_ok]
  constructor
  · intro h
    rcases h with ⟨_, entries, sorted, helements, hentries, hsorted⟩
    obtain rfl := Except.ok.inj (hitems.symm.trans helements)
    obtain ⟨raws, hraws, hkeys⟩ := forall₂_comp.1 (hentries.imp fun item e => (hentry item e).1)
    exact ⟨raws, hraws, entries, sorted, hkeys, hsorted⟩
  · intro h
    rcases h with ⟨raws, hraws, entries, sorted, hkeys, hsorted⟩
    refine ⟨items, entries, sorted, hitems, ?_, hsorted⟩
    exact (forall₂_comp.2 ⟨raws, hraws, hkeys⟩).imp fun item e => (hentry item e).2

/-- An entry of a map is normalized as a pair. -/
theorem normalize_map_array_eq_ok :
    normalize env (.map c d) (.array items) = .ok raw ↔
      ∃ raws, List.Forall₂ (fun item raw => normalize env (.pair c d) item = .ok raw) items raws ∧
        SortedBy (fun item key => ∃ p, item = Value.entry p ∧ encode env c p.1 = .ok key)
          raws raw := by
  have hentry : ∀ (item : Value) (e : Order.Entry),
      (∃ p, item.resolve.asPair? = some p ∧ ∃ q, normalize env c p.1 = .ok q.1 ∧
          normalize env d p.2 = .ok q.2 ∧ encode env c q.1 = .ok e.1 ∧ e.2 = Value.entry q) ↔
        ∃ raw, normalize env (.pair c d) item = .ok raw ∧ e.2 = raw ∧
          ∃ p, raw = Value.entry p ∧ encode env c p.1 = .ok e.1 := by
    intro item e
    simp only [normalize_pair_eq_ok]
    constructor
    · intro h
      rcases h with ⟨p, hp, q, hkey, hvalue, hbytes, he⟩
      exact ⟨_, ⟨p.1, p.2, q.1, q.2, hp, hkey, hvalue, rfl⟩, he, q, rfl, hbytes⟩
    · intro h
      rcases h with ⟨_, ⟨a, b, a', b', hp, hkey, hvalue, rfl⟩, he, q, hq, hbytes⟩
      obtain rfl := Value.entry_injective (p := (a', b')) hq
      exact ⟨(a, b), hp, (a', b'), hkey, hvalue, hbytes, he⟩
  rw [normalize_map_eq_ok]
  simp only [Value.resolve, entries_array_eq_ok]
  constructor
  · intro h
    rcases h with ⟨pairs, entries, sorted, hpairs, hentries, hsorted⟩
    obtain ⟨raws, hraws, hkeys⟩ := forall₂_comp.1
      ((forall₂_comp.2 ⟨pairs, hpairs, hentries⟩).imp fun item e => (hentry item e).1)
    exact ⟨raws, hraws, entries, sorted, hkeys, hsorted⟩
  · intro h
    rcases h with ⟨raws, hraws, entries, sorted, hkeys, hsorted⟩
    obtain ⟨pairs, hpairs, hentries⟩ := forall₂_comp.1
      ((forall₂_comp.2 ⟨raws, hraws, hkeys⟩).imp fun item e => (hentry item e).2)
    exact ⟨pairs, entries, sorted, hpairs, hentries, hsorted⟩

theorem normalize_array_eq_ok (c : Codec) {e : Codec} (he : c.element? = some e) :
    normalize env c (.array items) = .ok raw ↔
      ∃ raws, List.Forall₂ (fun item raw => normalize env e item = .ok raw) items raws ∧
        c.Collects env raws raw := by
  match c with
  | .vector c =>
    obtain rfl := Option.some.inj he
    rw [normalize_vector_eq_ok]
    constructor
    · intro h
      rcases h with ⟨_, raws, hv, hraws, rfl⟩
      cases hv
      exact ⟨raws, hraws, rfl⟩
    · intro h
      rcases h with ⟨raws, hraws, rfl⟩
      exact ⟨items, raws, rfl, hraws, rfl⟩
  | .set c =>
    obtain rfl := Option.some.inj he
    exact normalize_set_array_eq_ok
  | .map c d =>
    obtain rfl := Option.some.inj he
    exact normalize_map_array_eq_ok
  | .optional c =>
    rw [normalize_optional_of_present rfl]
    exact normalize_array_eq_ok c he
  | .int _ | .varint | .bool | .bytes _ | .string | .time | .void | .pair .. | .variant ..
  | .struct .. | .objectId .. | .anyObjectId | .publicKey .. | .address .. | .operation _ =>
    cases he

/-! ## Two items -/

/-- The codec that looks at the first item of two. -/
def first? : Codec → Option Codec
  | .pair c _ => some c
  | .optional c => c.first?
  | _ => none

/-- The case for a tag that is given as a value. -/
def selected? (cases : CaseTable) (t : Value) : Option Codec :=
  match Check.tag t.resolve with
  | .ok tag => cases.lookup tag
  | .error _ => none

/-- The codec that looks at the second item of two, of which `t` is the first. -/
def second? (env : Registries) (t : Value) : Codec → Option Codec
  | .pair _ d => some d
  | .variant _ cases => selected? cases t
  | .operation link =>
      match (env link.registry).table with
      | .ok table => selected? table t
      | .error _ => none
  | .optional c => c.second? env t
  | _ => none

/-- A codec for all items has none for the first or the second one. -/
theorem first?_second?_of_element? (c : Codec) (a : Value) {e : Codec} (he : c.element? = some e) :
    c.first? = none ∧ c.second? env a = none := by
  match c with
  | .vector _ | .set _ | .map .. => exact ⟨rfl, rfl⟩
  | .optional c => exact first?_second?_of_element? c a he
  | .int _ | .varint | .bool | .bytes _ | .string | .time | .void | .pair .. | .variant ..
  | .struct .. | .objectId .. | .anyObjectId | .publicKey .. | .address .. | .operation _ =>
    cases he

/-- What becomes of a tag and a payload. -/
def Opens (env : Registries) (cases : CaseTable) (t payload raw : Value) : Prop :=
  ∃ tag c raw', Check.tag t.resolve = .ok tag ∧ cases.lookup tag = some c ∧
    normalize env c payload = .ok raw' ∧ raw = .array [.int tag.toNat, raw']

/-- The asset of the fees that an operation codec fills in. -/
def filledAsset? (link : OperationLink) : Option String :=
  if link.zeroFee then some link.feeAsset else none

/-- What the payload of an operation stands for, with a fee in the asset if it
    has fields. -/
def withFee (asset : Option String) (payload : Value) : Value :=
  match asset, payload.resolve with
  | some asset, .object fields => .object (Fee.complete asset fields)
  | _, w => w

/-- What becomes of an array of two. -/
def Couples (env : Registries) : Codec → Value → Value → Value → Prop
  | .pair c d, a, b, raw =>
      ∃ a' b', normalize env c a = .ok a' ∧ normalize env d b = .ok b' ∧ raw = .array [a', b']
  | .variant _ cases, t, payload, raw => Opens env cases t payload raw
  | .operation link, t, payload, raw =>
      ∃ table, (env link.registry).table = .ok table ∧
        Opens env table t (withFee (filledAsset? link) payload) raw
  | .optional c, a, b, raw => c.Couples env a b raw
  | _, _, _, _ => False

theorem normalize_variant_array_eq_ok {label : String} {cases : CaseTable} :
    normalize env (.variant label cases) (.array items) = .ok raw ↔
      ∃ t payload, items = [t, payload] ∧ Opens env cases t payload raw := by
  simp only [normalize_variant_eq_ok, Value.resolve, Value.asPair?_eq_some, Value.array.injEq,
    Opens]
  constructor
  · intro h
    rcases h with ⟨t, payload, tag, c, raw', hitems, h⟩
    exact ⟨t, payload, hitems, tag, c, raw', h⟩
  · intro h
    rcases h with ⟨t, payload, hitems, tag, c, raw', h⟩
    exact ⟨t, payload, tag, c, raw', hitems, h⟩

theorem Opens.resolve {cases : CaseTable} {t payload : Value} :
    Opens env cases t payload.resolve raw ↔ Opens env cases t payload raw := by
  simp only [Opens, normalize_resolve]

/-- A pair is passed on as a pair with the same tag. -/
theorem exists_operationInput (link : OperationLink) (t payload : Value) :
    ∃ w, operationInput link (.array [t, payload]) = .array [t, w] ∧
      w.resolve = withFee (filledAsset? link) payload := by
  unfold operationInput filledAsset?
  by_cases hzero : link.zeroFee = true
  · simp only [hzero, if_true, Value.resolve, Fee.fillIn, Value.asPair?, withFee]
    -- Only objects are given a fee.
    cases hpayload : payload.resolve with
    | object fields => exact ⟨_, rfl, rfl⟩
    | _ => exact ⟨payload, rfl, hpayload⟩
  · simp only [hzero, withFee]
    exact ⟨payload, rfl, rfl⟩

theorem operationInput_of_not_pair {link : OperationLink}
    (h : (Value.array items).asPair? = none) :
    operationInput link (.array items) = .array items := by
  simp only [operationInput, Value.resolve, Fee.fillIn, h, ite_self]

theorem normalize_operationInput_eq_ok {link : OperationLink} {label : String}
    {cases : CaseTable} :
    normalize env (.variant label cases) (operationInput link (.array items)) = .ok raw ↔
      ∃ t payload, items = [t, payload] ∧
        Opens env cases t (withFee (filledAsset? link) payload) raw := by
  cases hitems : (Value.array items).asPair? with
  | none =>
    -- What is not a pair is refused with or without a fee.
    have hne : ∀ t payload, items ≠ [t, payload] := by
      rintro t payload rfl
      cases hitems
    rw [operationInput_of_not_pair hitems, normalize_variant_array_eq_ok]
    constructor
    · intro h
      rcases h with ⟨t, payload, h, _⟩
      exact absurd h (hne t payload)
    · intro h
      rcases h with ⟨t, payload, h, _⟩
      exact absurd h (hne t payload)
  | some p =>
    obtain ⟨t, payload⟩ := p
    obtain ⟨w, hw, hresolve⟩ := exists_operationInput link t payload
    cases Value.asPair?_eq_some.1 hitems
    rw [hw, normalize_variant_array_eq_ok]
    constructor
    · intro h
      rcases h with ⟨_, _, ⟨⟩, h⟩
      exact ⟨t, payload, rfl, hresolve ▸ Opens.resolve.2 h⟩
    · intro h
      rcases h with ⟨_, _, ⟨⟩, h⟩
      exact ⟨t, w, rfl, Opens.resolve.1 (hresolve.symm ▸ h)⟩

theorem normalize_couple_eq_ok (c : Codec) (hc : c.element? = none) :
    normalize env c (.array items) = .ok raw ↔
      ∃ a b, items = [a, b] ∧ c.Couples env a b raw := by
  match c with
  | .pair c d =>
    simp only [normalize_pair_eq_ok, Value.resolve, Value.asPair?_eq_some, Value.array.injEq,
      Couples]
    constructor
    · intro h
      rcases h with ⟨a, b, a', b', hitems, h⟩
      exact ⟨a, b, hitems, a', b', h⟩
    · intro h
      rcases h with ⟨a, b, hitems, a', b', h⟩
      exact ⟨a, b, a', b', hitems, h⟩
  | .variant label cases => exact normalize_variant_array_eq_ok
  | .operation link =>
    rw [normalize_operation_eq_ok]
    simp only [normalize_operationInput_eq_ok, Couples]
    constructor
    · intro h
      rcases h with ⟨table, htable, a, b, hitems, h⟩
      exact ⟨a, b, hitems, table, htable, h⟩
    · intro h
      rcases h with ⟨a, b, hitems, table, htable, h⟩
      exact ⟨table, htable, a, b, hitems, h⟩
  | .optional c =>
    rw [normalize_optional_of_present rfl]
    exact normalize_couple_eq_ok c hc
  | .vector _ | .set _ | .map .. => cases hc
  | .int _ | .varint | .bool | .bytes _ | .string | .time | .void | .struct .. | .objectId ..
  | .anyObjectId | .publicKey .. | .address .. =>
    -- These refuse all arrays.
    constructor
    · intro h
      cases h
    · intro h
      rcases h with ⟨_, _, _, h⟩
      exact h.elim

/-! ## Objects -/

/-- The codec that looks at the field of a name. -/
def named? (name : String) : Codec → Option Codec
  | .struct fields _ => fields.lookup name
  | .map _ d => some d
  | .optional c => c.named? name
  | _ => none

/-- A record that is given to a map stands for the array of its fields. -/
theorem normalize_map_object (htext : c.hasTextForm = true) (record : Record Value) :
    normalize env (.map c d) (.object record) =
      normalize env (.map c d) (.array (record.map fun f => Value.entry (.str f.1, f.2))) := by
  have hentries : Check.entries c.hasTextForm
      (.array (record.map fun f => Value.entry (.str f.1, f.2))) =
        Check.entries c.hasTextForm (.object record) := by
    have h := entries_array c.hasTextForm (record.map fun f => (.str f.1, f.2))
    rw [List.map_map] at h
    rw [htext] at h ⊢
    exact h
  simp only [normalize, normalizeWith, Value.resolve, hentries]

theorem hasTextForm_of_normalize_object {record : Record Value}
    (h : normalize env (.map c d) (.object record) = .ok raw) : c.hasTextForm = true := by
  by_contra htext
  obtain ⟨_, _, _, hentries, _⟩ := normalize_map_eq_ok.1 h
  simp [Value.resolve, Check.entries, htext] at hentries

theorem normalize_struct_object_eq_ok {fields : List (String × Codec)} {ignoreUnknown : Bool}
    (hdistinct : (fields.map Prod.fst).Nodup) {record : Record Value} :
    normalize env (.struct fields ignoreUnknown) (.object record) = .ok raw ↔
      Check.keys ignoreUnknown (fields.map Prod.fst) record = .ok () ∧
        ∃ raws, Value.FieldsOf (fun f raw => normalize env f.2 (Value.field record f.1) = .ok raw)
          fields raws ∧ raw = .object raws := by
  rw [normalize_struct_eq_ok hdistinct]
  constructor
  · intro h
    rcases h with ⟨_, raws, ⟨⟩, hkeys, h⟩
    exact ⟨hkeys, raws, h⟩
  · intro h
    rcases h with ⟨hkeys, raws, h⟩
    exact ⟨record, raws, rfl, hkeys, h⟩

theorem normalize_operation_object_ne (link : OperationLink) (record : Record Value) :
    normalize env (.operation link) (.object record) ≠ .ok raw := by
  intro h
  obtain ⟨table, _, h⟩ := normalize_operation_eq_ok.1 h
  -- An object is not a pair, and nothing is filled in.
  have hinput : operationInput link (.object record) = .object record := by
    simp only [operationInput, Value.resolve, Fee.fillIn, Value.asPair?, ite_self]
  rw [hinput] at h
  cases h

/-- Two objects are normalized alike if they have the same keys, with alike
    values under them, and are alike as the entries of a map. -/
theorem normalize_object_congr (c : Codec) (hnames : DistinctNames env c)
    {record record' : Record Value}
    (hkeys : ∀ name, name ∈ Record.keys record ↔ name ∈ Record.keys record')
    (hfields : ∀ name d, c.named? name = some d → DistinctNames env d → ∀ raw,
      normalize env d (Value.field record name) = .ok raw ↔
        normalize env d (Value.field record' name) = .ok raw)
    (hentries : ∀ d e, (∀ name, c.named? name = some e) → DistinctNames env (.map d e) → ∀ raw,
      normalize env (.map d e) (.array (record.map fun f => Value.entry (.str f.1, f.2))) =
          .ok raw ↔
        normalize env (.map d e) (.array (record'.map fun f => Value.entry (.str f.1, f.2))) =
          .ok raw) (raw : Value) :
    normalize env c (.object record) = .ok raw ↔ normalize env c (.object record') = .ok raw := by
  match c with
  | .struct fields ignoreUnknown =>
    have hdistinct : (fields.map Prod.fst).Nodup := hnames _ (.refl _)
    have hknown : Check.keys ignoreUnknown (fields.map Prod.fst) record = .ok () ↔
        Check.keys ignoreUnknown (fields.map Prod.fst) record' = .ok () := by
      simp only [Check.keys_eq_ok, hkeys]
    have hsame : ∀ f ∈ fields, ∀ raw, normalize env f.2 (Value.field record f.1) = .ok raw ↔
        normalize env f.2 (Value.field record' f.1) = .ok raw := fun f hf =>
      hfields f.1 f.2 (Record.get?_of_mem hdistinct hf) (hnames.inside (.field hf))
    simp only [normalize_struct_object_eq_ok hdistinct, hknown, Value.fieldsOf_congr hsame]
  | .map c d =>
    by_cases htext : c.hasTextForm = true
    · rw [normalize_map_object htext, normalize_map_object htext]
      exact hentries c d (fun _ => rfl) hnames raw
    · constructor
      · intro h
        exact absurd (hasTextForm_of_normalize_object h) htext
      · intro h
        exact absurd (hasTextForm_of_normalize_object h) htext
  | .optional c =>
    rw [normalize_optional_of_present rfl, normalize_optional_of_present rfl]
    exact normalize_object_congr c (hnames.inside .optional) hkeys hfields hentries raw
  | .void =>
    -- Nothing is an object without keys.
    cases record with
    | nil =>
      cases record' with
      | nil => exact Iff.rfl
      | cons f _ => exact absurd ((hkeys f.1).2 (by simp [Record.keys])) (by simp [Record.keys])
    | cons f _ =>
      cases record' with
      | nil => exact absurd ((hkeys f.1).1 (by simp [Record.keys])) (by simp [Record.keys])
      | cons _ _ => exact Iff.rfl
  | .operation link =>
    constructor
    · intro h
      exact absurd h (normalize_operation_object_ne link record)
    · intro h
      exact absurd h (normalize_operation_object_ne link record')
  | .int _ | .varint | .bool | .bytes _ | .string | .time | .vector _ | .set _ | .pair ..
  | .variant .. | .objectId .. | .anyObjectId | .publicKey .. | .address .. =>
    exact Iff.rfl

end ChainCodec.Codec
