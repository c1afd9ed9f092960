import ChainCodec.Proofs.Fees

/-! # Other spellings of canonical values

    A value respells a canonical one if it is normalized to it.  Respelling
    the parts respells the whole, by one lemma for each form of codec, so a
    way of writing canonical values down is undone by normalization as soon
    as it is for scalars.  The canonical value itself is the first instance:
    `respells_self`.

    For operations the fee matters.  Where a codec fills in fees, the fee of
    the canonical value must be settled, and respelling keeps it so, which is
    the second part of `Respells`. -/

namespace ChainCodec.Codec

variable {env : Registries} {c d : Codec} {v raw : Value}

/-! ## Respelling -/

/-- What a canonical value needs so that it is normalized to itself. -/
def Stable (env : Registries) (d : Codec) (w : Value) : Prop :=
  Ordered env d w ∧ Settled env d w

/-- Entries in the order of their keys stay in this order. -/
theorem normalize_map_of_ordered {entries pairs : List (Value × Value)}
    (hordered : Ordered env (.map c d) (.array (pairs.map Value.entry)))
    (h : List.Forall₂ (fun e p => normalize env c e.1 = .ok p.1 ∧ normalize env d e.2 = .ok p.2)
      entries pairs) :
    normalize env (.map c d) (.array (entries.map Value.entry)) =
      .ok (.array (pairs.map Value.entry)) := by
  obtain ⟨keys, hkeys, hascending⟩ := hordered
  have hsort := Order.sortUnique_zip hkeys.length_eq.symm hascending
  refine normalize_map_eq_ok.2 ⟨entries, keys.zip (pairs.map Value.entry), pairs.map Value.entry,
    entries_array _ entries, ?_, hsort, rfl⟩
  -- Entry by entry: a canonical entry, and the key of its first part.
  rw [List.forall₂_map_left_iff] at hkeys
  clear hsort hascending
  induction hkeys generalizing entries with
  | nil =>
    cases h
    exact .nil
  | cons hkey _ ih =>
    cases h with
    | cons hentry hrest =>
      obtain ⟨q, hq, hbs⟩ := hkey
      obtain rfl := Value.entry_injective hq
      exact .cons ⟨_, hentry.1, hentry.2, hbs, rfl⟩ (ih hrest)

/-- The value is normalized to the canonical one, and if it is an object that
    stands for something, it takes fees as the canonical value does. -/
structure Respells (env : Registries) (c : Codec) (v raw : Value) : Prop where
  normal : normalize env c v = .ok raw
  fee : ∀ record, v.resolve = .object record → raw.isNull = false →
    ∃ raws, raw = .object raws ∧ (c.takesFee raws → c.takesFee record)

namespace Respells

theorem of_not_object (h : normalize env c v = .ok raw)
    (hv : ∀ record, v.resolve ≠ .object record) : Respells env c v raw :=
  ⟨h, fun record hrecord => absurd hrecord (hv record)⟩

theorem vector {items raws : List Value} (h : List.Forall₂ (Respells env c) items raws) :
    Respells env (.vector c) (.array items) (.array raws) := by
  refine of_not_object ?_ (by simp [Value.resolve])
  apply normalize_vector_eq_ok.2
  exact ⟨items, raws, rfl, h.imp fun _ _ hitem => hitem.normal, rfl⟩

/-- Values in the order of their keys stay in this order. -/
theorem set {items raws : List Value} (h : List.Forall₂ (Respells env c) items raws)
    (hordered : Ordered env (.set c) (.array raws)) :
    Respells env (.set c) (.array items) (.array raws) := by
  obtain ⟨keys, hkeys, hascending⟩ := hordered
  have hsort := Order.sortUnique_zip hkeys.length_eq.symm hascending
  refine of_not_object ?_ (by simp [Value.resolve])
  refine normalize_set_eq_ok.2 ⟨items, keys.zip raws, raws, rfl, ?_, hsort, rfl⟩
  -- Item by item: a canonical value, and its key.
  clear hsort hascending
  induction hkeys generalizing items with
  | nil =>
    cases h
    exact .nil
  | cons hkey _ ih =>
    cases h with
    | cons hitem hitems => exact .cons ⟨hitem.normal, hkey⟩ (ih hitems)

theorem map {entries pairs : List (Value × Value)}
    (h : List.Forall₂ (fun e p => Respells env c e.1 p.1 ∧ Respells env d e.2 p.2) entries pairs)
    (hordered : Ordered env (.map c d) (.array (pairs.map Value.entry))) :
    Respells env (.map c d) (.array (entries.map Value.entry))
      (.array (pairs.map Value.entry)) := by
  refine of_not_object (normalize_map_of_ordered hordered ?_) (by simp [Value.resolve])
  exact h.imp fun _ _ hentry => ⟨hentry.1.normal, hentry.2.normal⟩

theorem absent (c : Codec) : Respells env (.optional c) .null .null :=
  of_not_object (by simp [normalize, normalizeWith, Value.resolve, Value.isNull])
    (by simp [Value.resolve])

theorem present (h : Respells env c v raw) (hv : v.resolve = v) (hnull : v.isNull = false) :
    Respells env (.optional c) v raw := by
  refine ⟨?_, h.fee⟩
  simp only [normalize, normalizeWith, hv, hnull]
  exact h.normal

theorem pair {a b rawA rawB : Value} (ha : Respells env c a rawA) (hb : Respells env d b rawB) :
    Respells env (.pair c d) (.array [a, b]) (.array [rawA, rawB]) := by
  refine of_not_object ?_ (by simp [Value.resolve])
  apply normalize_pair_eq_ok.2
  exact ⟨a, b, rawA, rawB, rfl, ha.normal, hb.normal, rfl⟩

theorem normalize_variant {label : String} {cases : CaseTable} {tag : UInt32}
    (hcase : cases.lookup tag = some c) (h : normalize env c v = .ok raw) :
    normalize env (.variant label cases) (.array [.int tag.toNat, v]) =
      .ok (.array [.int tag.toNat, raw]) :=
  normalize_variant_eq_ok.2
    ⟨.int tag.toNat, v, tag, c, raw, rfl, Check.tag_uint32 tag, hcase, h, rfl⟩

theorem variant {label : String} {cases : CaseTable} {tag : UInt32}
    (hcase : cases.lookup tag = some c) (h : Respells env c v raw) :
    Respells env (.variant label cases) (.array [.int tag.toNat, v])
      (.array [.int tag.toNat, raw]) :=
  of_not_object (normalize_variant hcase h.normal) (by simp [Value.resolve])

theorem struct {fields : List (String × Codec)} {ignoreUnknown : Bool}
    {record raws : Record Value} (hdistinct : (fields.map Prod.fst).Nodup)
    (hkeys : Record.keys raws = fields.map Prod.fst)
    (hknown : ∀ name ∈ Record.keys record, name ∈ fields.map Prod.fst)
    (hfields : ∀ f ∈ fields,
      Respells env f.2 (Value.field record f.1) (Value.field raws f.1))
    (hpresent : ∀ f ∈ fields, (Value.field raws f.1).isNull = false →
      (Value.field record f.1).isNull = false) :
    Respells env (.struct fields ignoreUnknown) (.object record) (.object raws) := by
  constructor
  · have hcheck : Check.keys ignoreUnknown (fields.map Prod.fst) record = .ok () :=
      Check.keys_eq_ok.2 (.inr hknown)
    have hraws := Value.fieldsOf_of_keys
      (R := fun f raw => normalize env f.2 (Value.field record f.1) = .ok raw)
      hkeys hdistinct fun f hf => (hfields f hf).normal
    exact (normalize_struct_eq_ok hdistinct).2 ⟨record, raws, rfl, hcheck, hraws, rfl⟩
  · intro r hr _
    cases hr
    refine ⟨raws, rfl, fun htakes => ?_⟩
    -- A given fee stays given; whether fees are dropped is up to the codec.
    rcases htakes with hgiven | hdropped
    · left
      apply isGiven_iff.2
      have hnull := isGiven_iff.1 hgiven
      -- The fee is a field of the schema, since the canonical value has no others.
      by_cases hname : Fee.fieldName ∈ fields.map Prod.fst
      · obtain ⟨f, hf, hf'⟩ := List.mem_map.1 hname
        rw [← hf'] at hnull ⊢
        exact hpresent f hf hnull
      · rw [← hkeys] at hname
        rw [Value.field_eq_null hname] at hnull
        cases hnull
    · exact .inr hdropped

theorem operation {link : OperationLink} {table : CaseTable} {tag : UInt32}
    (htable : (env link.registry).table = .ok table) (hcase : table.lookup tag = some c)
    (hsettled : link.zeroFee = true → ∀ raws, raw = .object raws → c.takesFee raws)
    (hobject : link.zeroFee = true → ∀ record, v = .object record → raw.isNull = false)
    (hv : v.resolve = v) (h : Respells env c v raw) :
    Respells env (.operation link) (.array [.int tag.toNat, v]) (.array [.int tag.toNat, raw]) := by
  refine of_not_object ?_ (by simp [Value.resolve])
  rw [normalize_operation]
  refine Except.bind_eq_ok.2 ⟨.variant operationLabel table,
    Registries.unionOf_eq_ok.2 ⟨table, htable, rfl⟩, ?_⟩
  -- Only zero-fee mode looks at the payload before the union does.
  by_cases hzero : link.zeroFee = true
  · simp only [operationInput, hzero, if_true, Value.resolve, Fee.fillIn, Value.asPair?, hv]
    split
    · rename_i record
      -- The fee that is filled in makes no difference, since it is settled in
      -- the canonical value and so in its respelling.
      obtain ⟨raws, hraws, htakes⟩ := h.fee record rfl (hobject hzero record rfl)
      refine normalize_variant hcase ?_
      rw [normalize_complete c (htakes (hsettled hzero raws hraws))]
      exact h.normal
    · exact normalize_variant hcase h.normal
  · simp only [operationInput, hzero]
    exact normalize_variant hcase h.normal

end Respells

/-! ## Canonical values respell themselves -/

open Respells

theorem respells_self (h : Shaped env (Stable env) c raw) : Respells env c raw raw := by
  induction h with
  | int _ hlow hhigh =>
    refine of_not_object (Except.bind_eq_ok.2 ⟨_, Check.integer_int hlow hhigh, rfl⟩) ?_
    simp [Value.resolve]
  | varint _ =>
    refine of_not_object (Except.bind_eq_ok.2 ⟨_, Check.integer_uint32 _, rfl⟩) ?_
    simp [Value.resolve]
  | bool _ => exact of_not_object rfl (by simp [Value.resolve])
  | bytes _ hsize =>
    refine of_not_object (Except.bind_eq_ok.2 ⟨_, rfl, Except.bind_eq_ok.2 ⟨_, ?_, rfl⟩⟩) ?_
    · exact Check.byteCount_eq_ok.2 ⟨rfl, hsize⟩
    · simp [Value.resolve]
  | string _ => exact of_not_object rfl (by simp [Value.resolve])
  | time _ =>
    refine of_not_object (Except.bind_eq_ok.2 ⟨_, Check.seconds_uint32 _, rfl⟩) ?_
    simp [Value.resolve]
  | void _ => exact of_not_object rfl (by simp [Value.resolve])
  | vector _ _ ih =>
    exact .vector (List.forall₂_same.2 ih)
  | set hP _ ih => exact .set (List.forall₂_same.2 ih) hP.1
  | map hP hpairs _ _ ihkeys ihvalues =>
    subst hpairs
    exact .map (List.forall₂_same.2 fun p hp => ⟨ihkeys p hp, ihvalues p hp⟩) hP.1
  | absent _ => exact .absent _
  | present _ hnull h ih => exact .present ih h.resolve_eq hnull
  | pair _ _ _ iha ihb => exact .pair iha ihb
  | variant _ htag hcase _ ih =>
    subst htag
    exact .variant hcase ih
  | struct _ hdistinct hkeys _ ih =>
    -- The keys of the record are those of the schema, in its order.
    exact .struct hdistinct hkeys (fun name hname => hkeys ▸ hname) ih fun _ _ => id
  | objectId _ hspace htype hinst =>
    refine of_not_object (Except.bind_eq_ok.2
      ⟨_, Check.objectId_render hspace htype hinst, rfl⟩) ?_
    simp [Value.resolve]
  | anyObjectId _ hinst =>
    obtain ⟨n, hn⟩ := Check.exists_packed hinst
    refine of_not_object (Except.bind_eq_ok.2 ⟨_, Check.anyObjectId_render _,
      Except.bind_eq_ok.2 ⟨n, hn, rfl⟩⟩) ?_
    simp [Value.resolve]
  | publicKey _ hcheck =>
    refine of_not_object (Except.bind_eq_ok.2 ⟨_, Check.publicKey_render _ hcheck, rfl⟩) ?_
    simp [Value.resolve]
  | address _ hbytes =>
    refine of_not_object (Except.bind_eq_ok.2 ⟨_, Check.address_render _ hbytes, rfl⟩) ?_
    simp [Value.resolve]
  | operation hP htable htag hcase h ih =>
    subst htag
    refine .operation htable hcase (fun hzero raws hraws => ?_) (fun _ record hrecord => ?_)
      h.resolve_eq ih
    · exact hP.2 _ _ raws rfl hzero (hraws ▸ .operand htable rfl hcase)
    · rw [hrecord]
      rfl

theorem stable_of_settled (h : Shaped env (Ordered env) c raw)
    (hsettled : ∀ n d w, Part env c raw n d w → Settled env d w) :
    Shaped env (Stable env) c raw :=
  h.of_parts fun n d w hw => ⟨(h.part hw).holds, hsettled n d w hw⟩

/-- A canonical value is its own canonical value exactly if its fees are
    settled. -/
theorem normalize_self_iff (hnames : DistinctNames env c) (h : Shaped env (Ordered env) c raw) :
    normalize env c raw = .ok raw ↔ ∀ n d w, Part env c raw n d w → Settled env d w := by
  constructor
  · intro hself n d w hw
    exact settled_of_normalize h hnames hself hw
  · intro hsettled
    exact (respells_self (stable_of_settled h hsettled)).normal

theorem normalize_self_of_feesKept (hnames : DistinctNames env c) (hfees : FeesKept env c)
    (h : Shaped env (Ordered env) c raw) : normalize env c raw = .ok raw :=
  (normalize_self_iff hnames h).2 fun _ _ _ hw => settled_of_feesKept h hfees hw

end ChainCodec.Codec
