import ChainCodec.Proofs.Sources

/-! # Fees that are filled in

    An operation codec in zero-fee mode gives a fee to every operation that
    is an object without one.  That makes no difference where the operation
    has a fee, or drops the one that it is given: then the fee is settled.

    A canonical value whose fees are not settled is not its own canonical
    value: `settled_of_normalize`.  Fees are settled in all canonical values
    where schemas see to it that fees stay: `settled_of_feesKept`. -/

namespace ChainCodec.Codec

variable {env : Registries} {c d : Codec} {u v w raw : Value} {link : OperationLink}

/-! ## Settled fees -/

/-- A fee that is filled into the fields makes no difference to the codec. -/
def takesFee : Codec → Record Value → Prop
  | .struct fields ignoreUnknown, record =>
      Fee.isGiven record = true ∨ ignoreUnknown = true ∧ Fee.fieldName ∉ fields.map Prod.fst
  | .optional c, record => c.takesFee record
  | _, _ => False

theorem normalize_complete {asset : String} {record : Record Value} (c : Codec)
    (h : c.takesFee record) :
    normalize env c (.object (Fee.complete asset record)) = normalize env c (.object record) := by
  match c with
  | .optional c => exact normalize_complete c h
  | .struct fields ignoreUnknown =>
    by_cases hgiven : Fee.isGiven record = true
    · rw [Fee.complete, if_pos hgiven]
    · obtain ⟨rfl, hname⟩ := h.resolve_left hgiven
      -- The fee goes under a name that is none of the fields.
      have hfield : ∀ f ∈ fields, Value.field (Fee.complete asset record) f.1 =
          Value.field record f.1 := by
        intro f hf
        rw [Fee.complete, if_neg hgiven]
        refine Value.field_insert_of_ne _ fun e => hname ?_
        exact List.mem_map.2 ⟨f, hf, e.symm⟩
      -- Unknown keys are ignored here, so the new one is not looked at.
      simp only [normalize, normalizeWith, Value.resolve]
      exact congrArg (· >>= fun raws => pure (Value.object (Record.ofList raws)))
        (normalizeFields_eq_of_fields hfield)
  | .int _ | .varint | .bool | .bytes _ | .string | .time | .void | .vector _ | .set _ | .map ..
  | .pair .. | .variant .. | .objectId .. | .anyObjectId | .publicKey .. | .address ..
  | .operation _ => exact h.elim

/-- The fees of operations are settled: behind a codec that fills in fees,
    filling in another one makes no difference. -/
def Settled (env : Registries) (d : Codec) (w : Value) : Prop :=
  ∀ link c record, d = .operation link → link.zeroFee = true →
    Child env d w 1 c (.object record) → c.takesFee record

theorem isGiven_iff {record : Record Value} :
    Fee.isGiven record = true ↔ (Value.field record Fee.fieldName).isNull = false := by
  unfold Fee.isGiven Value.field
  cases Record.get? Fee.fieldName record with
  | none => simp [Value.isNull]
  | some fee => simp

/-- A fee that cannot be null is there. -/
theorem takesFee_of_keepsFee {P : Codec → Value → Prop} {record : Record Value} (c : Codec)
    (h : Shaped env P c (.object record)) (hkeeps : c.keepsFee = true) : c.takesFee record := by
  match c with
  | .optional c =>
    unfold keepsFee at hkeeps
    cases h with
    | present _ _ hpresent => exact takesFee_of_keepsFee c hpresent hkeeps
  | .struct fields ignoreUnknown =>
    cases h with
    | struct _ _ _ hfields =>
      simp only [keepsFee] at hkeeps
      split at hkeeps
      · rename_i fee hfee
        -- The fee has the shape of its codec, which is not nullable.
        left
        apply isGiven_iff.2
        exact (hfields _ (mem_of_lookup hfee)).isNull_eq_false (by simpa using hkeeps)
      · rename_i hfee
        -- There is no field for a fee, and one that is given is ignored.
        right
        refine ⟨hkeeps, fun hname => ?_⟩
        obtain ⟨f, hf, hf'⟩ := List.mem_map.1 hname
        have := List.lookup_eq_none_iff.1 hfee f hf
        simp [hf'] at this
  | .int _ | .varint | .bool | .bytes _ | .string | .time | .void | .vector _ | .set _ | .map ..
  | .pair .. | .variant .. | .objectId .. | .anyObjectId | .publicKey .. | .address ..
  | .operation _ => cases h

/-- Where schemas see to it that fees are kept, they are settled in all
    canonical values. -/
theorem settled_of_feesKept {P : Codec → Value → Prop} (h : Shaped env P c v)
    (hfees : FeesKept env c) {n : Nat} {w : Value} (hw : Part env c v n d w) :
    Settled env d w := by
  intro link e record hd hzero hchild
  subst hd
  refine takesFee_of_keepsFee e ((h.part hw).child hchild) ?_
  cases hchild with
  | operand htable _ hcase => exact hfees _ _ _ hw.reaches hzero htable (mem_of_lookup hcase)

/-- The operations that fees are filled into have fields: the payload of
    others is null, which is rendered as an empty object. -/
def HasFields (env : Registries) (d : Codec) (w : Value) : Prop :=
  ∀ link c payload, d = .operation link → link.zeroFee = true →
    Child env d w 1 c payload → c ≠ .void

theorem hasFields_of_feesKept (hfees : FeesKept env c) {n : Nat} {w : Value}
    (hw : Part env c v n d w) : HasFields env d w := by
  intro link e payload hd hzero hchild hvoid
  subst hd
  cases hchild with
  | operand htable _ hcase =>
    have hkeeps := hfees _ _ _ hw.reaches hzero htable (mem_of_lookup hcase)
    rw [hvoid] at hkeeps
    cases hkeeps

/-! ## Null fees

    A fee that is given stays, since only null and empty objects are
    normalized to null. -/

theorem eq_null_or_empty_of_normalize (c : Codec) (hnames : DistinctNames env c) {v : Value}
    (h : normalize env c v = .ok .null) : v.resolve = .null ∨ v.resolve = .object [] := by
  have hshape := shaped_of_normalize hnames h
  match c with
  | .void =>
    simp only [normalize, normalizeWith] at h
    split at h
    · rename_i hv
      exact .inl hv
    · rename_i hv
      exact .inr hv
    · cases h
  | .optional c =>
    rw [normalize_optional] at h
    split at h
    · rename_i hnull
      exact .inl (Value.isNull_iff.1 hnull)
    · have := eq_null_or_empty_of_normalize c (hnames.inside .optional) h
      rwa [Value.resolve_resolve] at this
  | .int _ | .varint | .bool | .bytes _ | .string | .time | .vector _ | .set _ | .map .. | .pair ..
  | .variant .. | .struct .. | .objectId .. | .anyObjectId | .publicKey .. | .address ..
  | .operation _ => cases hshape

/-- An empty object that is canonical does not stand for null. -/
theorem eq_null_of_normalize {P : Codec → Value → Prop} (hv : Shaped env P c v)
    (hnames : DistinctNames env c) (h : normalize env c v = .ok .null) : v = .null := by
  have hshape := shaped_of_normalize hnames h
  induction hv with
  | void _ | absent _ => rfl
  | present _ hnull hv ih =>
    rw [normalize_optional, hv.resolve_eq, hnull] at h
    have hnames := hnames.inside .optional
    exact ih hnames h (shaped_of_normalize hnames h)
  | _ => cases hshape

theorem isGiven_complete (asset : String) (record : Record Value) :
    Fee.isGiven (Fee.complete asset record) = true := by
  by_cases hgiven : Fee.isGiven record = true
  · rwa [Fee.complete, if_pos hgiven]
  · rw [Fee.complete, if_neg hgiven, Fee.isGiven, Record.get?_insert_self]
    rfl

theorem exists_of_normalize_object (c : Codec) (hnames : DistinctNames env c) {v : Value}
    {raws : Record Value} (h : normalize env c v = .ok (.object raws)) :
    ∃ record, v.resolve = .object record := by
  have hshape := shaped_of_normalize hnames h
  match c with
  | .struct fields _ =>
    obtain ⟨record, _, hv, _⟩ := (normalize_struct_eq_ok (hnames _ (.refl _))).1 h
    exact ⟨record, hv⟩
  | .optional c =>
    rw [normalize_optional] at h
    split at h
    · cases h
    · have := exists_of_normalize_object c (hnames.inside .optional) h
      rwa [Value.resolve_resolve] at this
  | .int _ | .varint | .bool | .bytes _ | .string | .time | .void | .vector _ | .set _ | .map ..
  | .pair .. | .variant .. | .objectId .. | .anyObjectId | .publicKey .. | .address ..
  | .operation _ => cases hshape

theorem mem_keys_of_isGiven {record : Record Value} (h : Fee.isGiven record = true) :
    Fee.fieldName ∈ Record.keys record := by
  by_contra hmem
  rw [Fee.isGiven, Record.get?_eq_none hmem] at h
  cases h

/-- The fee that is given to a canonical record is not normalized to null. -/
theorem not_isNull_of_complete {P : Codec → Value → Prop} {asset : String}
    {record : Record Value} {fee : Value} (hnames : DistinctNames env c)
    (hv : Shaped env P c (Value.field record Fee.fieldName))
    (h : normalize env c (Value.field (Fee.complete asset record) Fee.fieldName) = .ok fee) :
    fee.isNull = false := by
  by_contra hcontra
  rw [Value.isNull_iff.1 (by simpa using hcontra : fee.isNull = true)] at h
  -- Either the fee of the record is meant, which is canonical, or the zero
  -- fee, which is an object with fields.
  by_cases hgiven : Fee.isGiven record = true
  · rw [Fee.complete, if_pos hgiven] at h
    have hnull := isGiven_iff.1 hgiven
    rw [eq_null_of_normalize hv hnames h] at hnull
    cases hnull
  · have hzero : Value.field (Fee.complete asset record) Fee.fieldName = Fee.zero asset := by
      rw [Fee.complete, if_neg hgiven, Value.field, Record.get?_insert_self]
      rfl
    rw [hzero] at h
    rcases eq_null_or_empty_of_normalize c hnames h with he | he <;> cases he

/-- If the codec accepts the fee that is given to a canonical record, the fee
    is there afterwards or was dropped. -/
theorem takesFee_of_normalize_complete {P : Codec → Value → Prop} {asset : String}
    {record raws : Record Value} (c : Codec) (hv : Shaped env P c (.object record))
    (hnames : DistinctNames env c)
    (h : normalize env c (.object (Fee.complete asset record)) = .ok (.object raws)) :
    c.takesFee raws := by
  match c with
  | .optional c =>
    rw [normalize_optional] at h
    cases hv with
    | present _ _ hv => exact takesFee_of_normalize_complete c hv (hnames.inside .optional) h
  | .struct fields ignoreUnknown =>
    have hdistinct : (fields.map Prod.fst).Nodup := hnames _ (.refl _)
    obtain ⟨_, _, hrecord, hkeys, hraws, he⟩ := (normalize_struct_eq_ok hdistinct).1 h
    cases hrecord
    cases he
    -- The fee is a field, or it was let through as an unknown key.
    by_cases hname : Fee.fieldName ∈ fields.map Prod.fst
    · left
      apply isGiven_iff.2
      obtain ⟨f, hf, hf'⟩ := List.mem_map.1 hname
      have hfee := hraws.field hdistinct hf
      have hshape : Shaped env P f.2 (Value.field record f.1) := hv.child (.field hf)
      rw [hf'] at hfee hshape
      exact not_isNull_of_complete (hnames.inside (.field hf)) hshape hfee
    · right
      have hmem := mem_keys_of_isGiven (isGiven_complete asset record)
      refine ⟨(Check.keys_eq_ok.1 hkeys).resolve_right fun hknown => ?_, hname⟩
      exact hname (hknown _ hmem)
  | .int _ | .varint | .bool | .bytes _ | .string | .time | .void | .vector _ | .set _ | .map ..
  | .pair .. | .variant .. | .objectId .. | .anyObjectId | .publicKey .. | .address ..
  | .operation _ => cases hv

/-! ## Normalizing a second time -/

/-- What normalization goes into when its input is canonical: canonical parts,
    operations that were given a fee, and parts of this fee, which has no
    arrays. -/
inductive Refilled (env : Registries) (P : Codec → Value → Prop) : Codec → Value → Prop
  | shaped {c : Codec} {v : Value} (h : Shaped env P c v) : Refilled env P c v
  | completed {c : Codec} {asset : String} {record : Record Value}
      (h : Shaped env P c (.object record)) :
      Refilled env P c (.object (Fee.complete asset record))
  | flat {c : Codec} {v : Value} (h : v.arrayDepth = 0) : Refilled env P c v

/-- An operation is passed on as it is, or is an object that is given a fee. -/
theorem operationInput_array (link : OperationLink) {t payload : Value}
    (hpayload : payload.resolve = payload) :
    (operationInput link (.array [t, payload]) = .array [t, payload] ∧
        (link.zeroFee = true → ∀ record, payload ≠ .object record)) ∨
      ∃ record, payload = .object record ∧ operationInput link (.array [t, payload]) =
        .array [t, .object (Fee.complete link.feeAsset record)] := by
  unfold operationInput
  by_cases hzero : link.zeroFee = true
  · rw [if_pos hzero]
    simp only [Value.resolve, Fee.fillIn, Value.asPair?, hpayload]
    split
    · rename_i record
      exact .inr ⟨record, rfl, rfl⟩
    · rename_i hobject
      exact .inl ⟨rfl, fun _ => hobject⟩
  · rw [if_neg hzero]
    exact .inl ⟨rfl, fun h => absurd h hzero⟩

variable {P : Codec → Value → Prop}

/-- What normalization goes into at a canonical operation is its payload, or
    the payload with a fee. -/
theorem exists_operand (hv : Shaped env P (.operation link) v)
    (hu : Source env (.operation link) v c u) :
    ∃ payload, Shaped env P c payload ∧
      ((u = payload ∧ (link.zeroFee = true → ∀ record, payload ≠ .object record)) ∨
        ∃ record, payload = .object record ∧
          u = .object (Fee.complete link.feeAsset record)) := by
  cases hu with
  | operand hu htable htag hcase =>
    cases hv with
    | @operation _ _ _ tag _ payload _ htable' hn hcase' h =>
      obtain rfl := Except.ok.inj (htable.symm.trans htable')
      subst hn
      -- Both inputs are pairs of the tag with something.
      have htags : ∀ {t u w : Value},
          (Value.array [.int tag.toNat, w]).resolve.asPair? = some (t, u) →
            u = w ∧ t = .int tag.toNat := by
        rintro _ _ _ ⟨⟩
        exact ⟨rfl, rfl⟩
      rcases operationInput_array link h.resolve_eq with ⟨hinput, hobject⟩ | ⟨record, hp, hinput⟩
      · rw [hinput] at hu
        obtain ⟨rfl, rfl⟩ := htags hu
        obtain rfl := Except.ok.inj ((Check.tag_uint32 tag).symm.trans htag)
        obtain rfl := Option.some.inj (hcase.symm.trans hcase')
        exact ⟨_, h, .inl ⟨rfl, hobject⟩⟩
      · rw [hinput] at hu
        obtain ⟨rfl, rfl⟩ := htags hu
        obtain rfl := Except.ok.inj ((Check.tag_uint32 tag).symm.trans htag)
        obtain rfl := Option.some.inj (hcase.symm.trans hcase')
        exact ⟨_, h, .inr ⟨record, hp, rfl⟩⟩

theorem Refilled.source (h : Refilled env P c v) (hu : Source env c v d u) :
    Refilled env P d u := by
  cases h with
  | flat hflat =>
    have := hu.arrayDepth_le
    exact .flat (by omega)
  | @completed asset record h =>
    -- Only optional codecs and structs have objects for canonical values.
    cases h with
    | present _ _ h =>
      cases hu with
      | present _ => exact .completed h
    | struct _ _ _ hfields =>
      cases hu with
      | @field _ _ _ f _ hv hf =>
        cases hv
        by_cases hgiven : Fee.isGiven record = true
        · rw [Fee.complete, if_pos hgiven]
          exact .shaped (hfields f hf)
        · rw [Fee.complete, if_neg hgiven]
          by_cases hname : Fee.fieldName = f.1
          · rw [← hname, Value.field, Record.get?_insert_self]
            exact .flat rfl
          · rw [Value.field_insert_of_ne _ hname]
            exact .shaped (hfields f hf)
  | shaped h =>
    -- A canonical value is not lazy, so its sources are its own parts.
    have hv' := h.resolve_eq
    cases hu with
    | item hv hmem =>
      rw [hv'] at hv
      subst hv
      exact .shaped (h.child (.item hmem))
    | element hv hmem =>
      rw [hv'] at hv
      cases h with
      | set _ hitems =>
        obtain rfl := Except.ok.inj hv
        exact .shaped (hitems _ hmem)
    | key hv hmem =>
      rw [hv'] at hv
      cases h with
      | map _ hpairs hkeys _ =>
        rw [hpairs, entries_array] at hv
        obtain rfl := Except.ok.inj hv
        exact .shaped (hkeys _ hmem)
    | value hv hmem =>
      rw [hv'] at hv
      cases h with
      | map _ hpairs _ hvalues =>
        rw [hpairs, entries_array] at hv
        obtain rfl := Except.ok.inj hv
        exact .shaped (hvalues _ hmem)
    | present hnull =>
      rw [hv'] at hnull ⊢
      exact .shaped (h.child (.present hnull))
    | first hv =>
      rw [hv'] at hv
      obtain rfl := Value.asPair?_eq_some.1 hv
      exact .shaped (h.child .first)
    | second hv =>
      rw [hv'] at hv
      obtain rfl := Value.asPair?_eq_some.1 hv
      exact .shaped (h.child .second)
    | payload hv htag hcase =>
      rw [hv'] at hv
      obtain rfl := Value.asPair?_eq_some.1 hv
      cases h with
      | variant _ hn hcase' h =>
        subst hn
        obtain rfl := Except.ok.inj ((Check.tag_uint32 _).symm.trans htag)
        obtain rfl := Option.some.inj (hcase.symm.trans hcase')
        exact .shaped h
    | field hv hf =>
      rw [hv'] at hv
      subst hv
      exact .shaped (h.child (.field hf))
    | operand hu htable htag hcase =>
      obtain ⟨payload, hpayload, h | ⟨record, rfl, rfl⟩⟩ :=
        exists_operand h (.operand hu htable htag hcase)
      · rw [h.1]
        exact .shaped hpayload
      · exact .completed hpayload

/-- Whatever a second normalization accepts has its fees settled. -/
theorem settled_of_refilled {n : Nat} (hv : Refilled env P c v) (hnames : DistinctNames env c)
    (h : normalize env c v = .ok raw) (hw : Part env c raw n d w) : Settled env d w := by
  -- The induction goes down the path in the result, and takes the source of
  -- each step along.
  induction hw generalizing v with
  | @step c d e raw w x _ _ hchild _ ih =>
    obtain ⟨u, hu, hnormal⟩ := exists_source hnames h hchild
    exact ih (hv.source hu) (hnames.inside hchild.inside) hnormal
  | self =>
    rintro link e raws rfl hzero hchild
    obtain ⟨u, hu, hnormal⟩ := exists_source hnames h hchild
    have hnames := hnames.inside hchild.inside
    cases hv with
    | shaped hv =>
      obtain ⟨payload, hpayload, ⟨rfl, hobject⟩ | ⟨record, rfl, rfl⟩⟩ := exists_operand hv hu
      · -- An object would have been given a fee.
        obtain ⟨record, hrecord⟩ := exists_of_normalize_object e hnames hnormal
        rw [hpayload.resolve_eq] at hrecord
        exact absurd hrecord (hobject hzero record)
      · exact takesFee_of_normalize_complete e hpayload hnames hnormal
    | completed hv => cases hv
    | flat hflat =>
      cases hu with
      | operand hu _ _ _ =>
        -- An operation is an array.
        have hpayload := Value.arrayDepth_lt_of_asPair? hu
        have hinput := arrayDepth_operationInput_le link v
        rw [Value.arrayDepth_resolve] at hpayload
        omega

/-- A canonical value that has a canonical value has its fees settled. -/
theorem settled_of_normalize {n : Nat} (hv : Shaped env P c v) (hnames : DistinctNames env c)
    (h : normalize env c v = .ok raw) (hw : Part env c raw n d w) : Settled env d w :=
  settled_of_refilled (.shaped hv) hnames h hw

end ChainCodec.Codec
