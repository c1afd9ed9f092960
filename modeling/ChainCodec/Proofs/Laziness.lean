import ChainCodec.Proofs.Collections
import ChainCodec.Proofs.Reading.Results
import ChainCodec.Proofs.Visits
import ChainCodec.Proofs.WellFormed
import Mathlib

/-! # Normalization does not see laziness

    A lazy value and the literal that it stands for have the same canonical
    value, and the same error if they have none: `normalize_force_of_shown`.
    Canonical values, and values that are read, are literal themselves.

    There is one place where laziness shows.  A fee that is filled in goes by
    the fee that is there, and a lazy one counts as given before anything has
    resolved it.  Where that hides a null, no fee is filled in. -/

namespace ChainCodec

/-! ## Hidden fees -/

namespace Fee

/-- The fee is lazy and stands for null. -/
def Hidden (fields : Record Value) : Prop :=
  ∃ fee, Record.get? fieldName fields = some (.lazy fee) ∧ fee.resolve = .null

/-- The value is an operation whose fee is hidden. -/
def HiddenIn (v : Value) : Prop :=
  ∃ id payload fields, v.resolve.asPair? = some (id, payload) ∧
    payload.resolve = .object fields ∧ Hidden fields

variable {fields : Record Value} {v : Value}

theorem isGiven_of_hidden (h : Hidden fields) : isGiven fields = true := by
  obtain ⟨fee, hfee, _⟩ := h
  unfold isGiven
  rw [hfee]
  rfl

theorem isGiven_force (h : ¬ Hidden fields) :
    isGiven (Record.mapValues Value.force fields) = isGiven fields := by
  unfold isGiven
  rw [Record.get?_mapValues]
  cases hfee : Record.get? fieldName fields with
  | none => rfl
  | some fee =>
    show (!fee.force.isNull) = !fee.isNull
    rw [Value.isNull_force]
    cases fee with
    | lazy w =>
      -- What is not hidden does not stand for null.
      have hnull : w.resolve.isNull = false := by
        cases hw : w.resolve with
        | null => exact absurd ⟨w, hfee, hw⟩ h
        | _ => rfl
      rw [Value.resolve_lazy, hnull]
      rfl
    | _ => rfl

theorem complete_force (asset : String) (h : ¬ Hidden fields) :
    complete asset (Record.mapValues Value.force fields) =
      Record.mapValues Value.force (complete asset fields) := by
  unfold complete
  rw [isGiven_force h]
  split
  · rfl
  · exact Record.insert_mapValues Value.force fields fieldName (zero asset)

/-- A fee that shows is filled in before or after forcing. -/
theorem fillIn_force (asset : String) (h : ¬ HiddenIn v) :
    fillIn asset v.force = (fillIn asset v.resolve).force := by
  unfold fillIn
  rw [Value.asPair?_force]
  cases hp : v.resolve.asPair? with
  | none => exact (Value.force_resolve v).symm
  | some p =>
    obtain ⟨id, payload⟩ := p
    dsimp only [Option.map_some, Prod.map_apply]
    rw [Value.resolve_force, ← Value.force_resolve payload]
    cases hpayload : payload.resolve with
    | lazy w => exact absurd hpayload (Value.resolve_ne_lazy payload w)
    | object fields =>
      have hshown : ¬ Hidden fields := fun hf => h ⟨id, payload, fields, hp, hpayload, hf⟩
      simp only [Value.force_object, Value.force_array, List.map_cons, List.map_nil]
      rw [complete_force asset hshown]
    | _ => exact (Value.force_resolve v).symm

/-- Where the fee is hidden there is nothing to fill in. -/
theorem fillIn_of_hidden (asset : String) (h : HiddenIn v) :
    (fillIn asset v.resolve).force = v.force := by
  obtain ⟨id, payload, fields, hp, hpayload, hfields⟩ := h
  unfold fillIn complete
  rw [hp]
  dsimp only
  rw [hpayload]
  dsimp only
  rw [if_pos (isGiven_of_hidden hfields), ← Value.force_resolve v, Value.asPair?_eq_some.1 hp,
    ← hpayload]
  simp only [Value.force_array, List.map_cons, List.map_nil, Value.force_resolve]

end Fee

namespace Codec

open Value

variable {env : Registries} {c d : Codec} {u v raw : Value}

/-! ## Forced input -/

/-- Every operation in zero-fee mode that is visited shows its fee. -/
def FeesShown (env : Registries) (c : Codec) (v : Value) : Prop :=
  ∀ link w, Visits env c v (.operation link) w → link.zeroFee = true → ¬ Fee.HiddenIn w

theorem FeesShown.source (h : FeesShown env c v) (hu : Source env c v d u) : FeesShown env d u :=
  fun link w hw => h link w (.step hu hw)

/-- Where no operation codec fills in fees, all fees show. -/
theorem feesShown_of_required
    (h : ∀ link, Reaches env c (.operation link) → link.zeroFee = false) (v : Value) :
    FeesShown env c v := by
  intro link w hw hzero
  rw [h link hw.reaches] at hzero
  cases hzero

theorem operationInput_force {link : OperationLink} (h : link.zeroFee = true → ¬ Fee.HiddenIn v) :
    operationInput link v.force = (operationInput link v).force := by
  unfold operationInput
  rw [resolve_force]
  split
  · exact Fee.fillIn_force _ (h ‹_›)
  · rfl

theorem operationInput_of_hidden (link : OperationLink) (h : Fee.HiddenIn v) :
    (operationInput link v).force = v.force := by
  unfold operationInput
  split
  · exact Fee.fillIn_of_hidden _ h
  · rfl

/-! ## Forcing, codec by codec -/

/-- Forcing the sources of the input makes no difference to them. -/
def SourcesForced (env : Registries) (c : Codec) (v : Value) : Prop :=
  ∀ d u, Source env c v d u → normalize env d u.force = normalize env d u

/-- A codec that looks into no arrays and no objects goes by what the input
    stands for. -/
theorem normalize_flat_force
    (harray : ∀ items items', normalize env c (.array items) = normalize env c (.array items'))
    (hobject : ∀ fields fields',
      normalize env c (.object fields) = normalize env c (.object fields'))
    (v : Value) : normalize env c v.force = normalize env c v := by
  rw [eq_on_force (normalize env c) harray hobject, normalize_resolve]

theorem normalize_void_force (v : Value) : normalize env .void v.force = normalize env .void v := by
  simp only [normalize, normalizeWith]
  rw [resolve_force, ← force_resolve]
  cases hv : v.resolve with
  | lazy w => exact absurd hv (resolve_ne_lazy v w)
  | object fields =>
    -- Only the object without fields will do.
    cases fields <;> rfl
  | _ => rfl

theorem normalize_vector_force (h : SourcesForced env (.vector c) v) :
    normalize env (.vector c) v.force = normalize env (.vector c) v := by
  simp only [normalize, normalizeWith]
  rw [resolve_force, Check.array_force, bind_map_left]
  apply Except.bind_congr_ok
  intro items hitems
  rw [traverseFrom_map_items]
  congr 1
  apply traverseFrom_congr
  intro i item hmem
  have hitem := h c item (.item (Check.array_eq_ok.1 hitems) hmem)
  unfold normalize at hitem
  rw [hitem]

theorem normalize_set_force (h : SourcesForced env (.set c) v) :
    normalize env (.set c) v.force = normalize env (.set c) v := by
  simp only [normalize, normalizeWith]
  rw [resolve_force, Check.elements_force, bind_map_left]
  apply Except.bind_congr_ok
  intro items hitems
  rw [traverseFrom_map_items]
  congr 1
  apply traverseFrom_congr
  intro i item hmem
  have hitem := h c item (.element hitems hmem)
  unfold normalize at hitem
  rw [hitem]

theorem normalize_map_force (h : SourcesForced env (.map c d) v) :
    normalize env (.map c d) v.force = normalize env (.map c d) v := by
  simp only [normalize, normalizeWith]
  rw [resolve_force, Check.entries_force, bind_map_left]
  apply Except.bind_congr_ok
  intro pairs hpairs
  rw [traverseFrom_map_items]
  congr 1
  apply traverseFrom_congr
  intro i p hmem
  have hkey := h c p.1 (.key hpairs hmem)
  have hvalue := h d p.2 (.value hpairs hmem)
  unfold normalize at hkey hvalue
  simp only [Prod.map_fst, Prod.map_snd]
  rw [hkey, hvalue]

theorem normalize_optional_force (h : SourcesForced env (.optional c) v) :
    normalize env (.optional c) v.force = normalize env (.optional c) v := by
  rw [normalize_optional, normalize_optional, resolve_force, isNull_force]
  by_cases hnull : v.resolve.isNull = true
  · rw [if_pos hnull, if_pos hnull]
  · have hpresent := h c v.resolve (.present (by simpa using hnull))
    rw [if_neg hnull, if_neg hnull, ← hpresent, force_resolve]

theorem normalize_pair_force (h : SourcesForced env (.pair c d) v) :
    normalize env (.pair c d) v.force = normalize env (.pair c d) v := by
  simp only [normalize, normalizeWith]
  rw [resolve_force, Check.pair_force, bind_map_left]
  apply Except.bind_congr_ok
  intro p hp
  have hfirst := h c p.1 (.first (Check.pair_eq_ok.1 hp))
  have hsecond := h d p.2 (.second (Check.pair_eq_ok.1 hp))
  unfold normalize at hfirst hsecond
  simp only [Prod.map_fst, Prod.map_snd]
  rw [hfirst, hsecond]

/-- The union may be the one behind an operation codec, so all that is said of
    the payload is how it is selected. -/
theorem normalize_variant_force {label : String} {cases : CaseTable}
    (h : ∀ t payload tag c, v.resolve.asPair? = some (t, payload) →
      Check.tag t.resolve = .ok tag → cases.lookup tag = some c →
        normalize env c payload.force = normalize env c payload) :
    normalize env (.variant label cases) v.force = normalize env (.variant label cases) v := by
  simp only [normalize, normalizeWith]
  rw [resolve_force, Check.tagged_force, bind_map_left]
  apply Except.bind_congr_ok
  intro p hp
  obtain ⟨t, payload⟩ := p
  simp only [Prod.map_apply]
  rw [resolve_force, Check.tag_force]
  apply Except.bind_congr_ok
  intro tag htag
  rw [normalizeCase_eq_of_lookup fun c hc => h t payload tag c (Check.tagged_eq_ok.1 hp) htag hc]

theorem normalize_struct_force {fields : List (String × Codec)} {ignoreUnknown : Bool}
    (h : SourcesForced env (.struct fields ignoreUnknown) v) :
    normalize env (.struct fields ignoreUnknown) v.force =
      normalize env (.struct fields ignoreUnknown) v := by
  simp only [normalize, normalizeWith]
  rw [resolve_force, Check.object_force, bind_map_left]
  apply Except.bind_congr_ok
  intro record hrecord
  rw [Check.keys_mapValues]
  congr 1
  funext _
  congr 1
  apply normalizeFields_congr_field
  apply List.forall₂_same.2
  intro f hf
  rw [field_force]
  exact ⟨rfl, h f.2 _ (.field (Check.object_eq_ok.1 hrecord) hf)⟩

/-- Forcing the input makes no difference to the result or the error, as long
    as it brings no hidden fee to light. -/
theorem normalize_force_of_shown (c : Codec) (v : Value) (hshown : FeesShown env c v) :
    normalize env c v.force = normalize env c v := by
  induction c, v using Source.induction env with
  | h c v ih =>
  have hsources : SourcesForced env c v := fun d u hu => ih d u hu (hshown.source hu)
  cases c with
  | int _ | varint | bool | bytes _ | string | time | objectId _ _ _ | anyObjectId
  | publicKey _ _ | address _ _ => exact normalize_flat_force (fun _ _ => rfl) (fun _ _ => rfl) v
  | void => exact normalize_void_force v
  | vector c => exact normalize_vector_force hsources
  | set c => exact normalize_set_force hsources
  | map c d => exact normalize_map_force hsources
  | optional c => exact normalize_optional_force hsources
  | pair c d => exact normalize_pair_force hsources
  | variant label cases =>
    apply normalize_variant_force
    intro t payload tag c hp htag hcase
    exact hsources c payload (.payload hp htag hcase)
  | struct fields ignoreUnknown => exact normalize_struct_force hsources
  | operation link =>
    -- The fee may be filled in before or after forcing, and then the codec is
    -- a union.
    rw [normalize_operation, normalize_operation, operationInput_force (hshown link v .self)]
    apply Except.bind_congr_ok
    intro union hunion
    obtain ⟨table, htable, rfl⟩ := Registries.unionOf_eq_ok.1 hunion
    apply normalize_variant_force
    intro t payload tag c hp htag hcase
    exact hsources c payload (.operand hp htable htag hcase)

/-- An operation whose fee is hidden is taken as it is. -/
theorem normalize_operation_of_hidden {link : OperationLink} (h : Fee.HiddenIn v)
    (hsources : ∀ d u, Source env (.operation link) v d u → FeesShown env d u) :
    normalize env (.operation link) v =
      normalize env (.operation { link with zeroFee := false }) v.force := by
  rw [normalize_operation, normalize_operation]
  apply Except.bind_congr_ok
  intro union hunion
  obtain ⟨table, htable, rfl⟩ := Registries.unionOf_eq_ok.1 hunion
  have hinput : operationInput { link with zeroFee := false } v.force =
      (operationInput link v).force := (operationInput_of_hidden link h).symm
  rw [hinput]
  symm
  apply normalize_variant_force
  intro t payload tag c hp htag hcase
  exact normalize_force_of_shown c payload (hsources c payload (.operand hp htable htag hcase))

/-- A fee that is missing, or plainly null, is filled in, however deep in lazy
    values the fields are. -/
theorem normalize_operation_of_feeless {link : OperationLink} (hzero : link.zeroFee = true)
    {id payload : Value} {fields : Record Value} (hv : v.resolve.asPair? = some (id, payload))
    (hpayload : payload.resolve = .object fields)
    (hfee : (field fields Fee.fieldName).isNull = true) :
    normalize env (.operation link) v =
      normalize env (.operation { link with zeroFee := false })
        (.array [id, .object (Record.insert Fee.fieldName (Fee.zero link.feeAsset) fields)]) := by
  have hgiven : ¬ Fee.isGiven fields = true := by
    rw [isGiven_iff, hfee]
    decide
  have hinput : operationInput link v =
      .array [id, .object (Record.insert Fee.fieldName (Fee.zero link.feeAsset) fields)] := by
    simp only [operationInput, if_pos hzero, Fee.fillIn, hv, hpayload, Fee.complete, if_neg hgiven]
  rw [normalize_operation, normalize_operation, hinput]
  rfl

/-! ## Literal results -/

/-- Canonical values are literal, whatever they are made from. -/
theorem literal_of_normalize (h : normalize env c v = .ok raw) : Literal raw := by
  induction c, v using Source.induction env generalizing raw with
  | h c v ih =>
  cases c with
  | int _ | varint | time =>
    simp only [normalize, normalizeWith, Except.bind_eq_ok, Except.pure_eq_ok] at h
    obtain ⟨n, _, rfl⟩ := h
    exact .int n
  | bool =>
    simp only [normalize, normalizeWith, Except.bind_eq_ok, Except.pure_eq_ok] at h
    obtain ⟨b, _, rfl⟩ := h
    exact .bool b
  | bytes size =>
    simp only [normalize, normalizeWith, Except.bind_eq_ok, Except.pure_eq_ok] at h
    obtain ⟨_, _, bs, _, rfl⟩ := h
    exact .bytes bs
  | string | objectId _ _ _ | publicKey _ _ | address _ _ =>
    simp only [normalize, normalizeWith, Except.bind_eq_ok, Except.pure_eq_ok] at h
    obtain ⟨_, _, rfl⟩ := h
    exact .str _
  | anyObjectId =>
    simp only [normalize, normalizeWith, Except.bind_eq_ok, Except.pure_eq_ok] at h
    obtain ⟨_, _, _, _, rfl⟩ := h
    exact .str _
  | void =>
    simp only [normalize, normalizeWith] at h
    split at h
    · cases h
      exact .null
    · cases h
      exact .null
    · exact absurd h Check.mismatch_ne_ok
  | vector c =>
    obtain ⟨items, raws, hv, hraws, rfl⟩ := normalize_vector_eq_ok.1 h
    apply Literal.array
    intro raw hraw
    obtain ⟨item, hitem, hnormal⟩ := forall₂_mem_right hraws hraw
    exact ih c item (.item hv hitem) hnormal
  | set c =>
    obtain ⟨items, entries, sorted, hitems, hentries, hsorted, rfl⟩ := normalize_set_eq_ok.1 h
    apply Literal.array
    intro raw hraw
    obtain ⟨key, hentry⟩ := Order.mem_of_sortUnique hsorted hraw
    obtain ⟨item, hitem, hnormal, _⟩ := forall₂_mem_right hentries hentry
    exact ih c item (.element hitems hitem) hnormal
  | map c d =>
    obtain ⟨pairs, entries, sorted, hpairs, hentries, hsorted, rfl⟩ := normalize_map_eq_ok.1 h
    apply Literal.array
    intro raw hraw
    obtain ⟨key, hentry⟩ := Order.mem_of_sortUnique hsorted hraw
    obtain ⟨p, hp, q, hkey, hvalue, _, he⟩ := forall₂_mem_right hentries hentry
    obtain rfl : raw = entry q := he
    exact literal_pair (ih c p.1 (.key hpairs hp) hkey) (ih d p.2 (.value hpairs hp) hvalue)
  | optional c =>
    rw [normalize_optional] at h
    split at h
    · cases h
      exact .null
    · rename_i hnull
      exact ih c v.resolve (.present (by simpa using hnull)) h
  | pair c d =>
    obtain ⟨a, b, a', b', hv, ha, hb, rfl⟩ := normalize_pair_eq_ok.1 h
    exact literal_pair (ih c a (.first hv) ha) (ih d b (.second hv) hb)
  | variant label cases =>
    obtain ⟨t, payload, tag, c, raw', hp, htag, hcase, hraw, rfl⟩ := normalize_variant_eq_ok.1 h
    exact literal_pair (.int _) (ih c payload (.payload hp htag hcase) hraw)
  | struct fields ignoreUnknown =>
    simp only [normalize, normalizeWith, Except.bind_eq_ok, Except.pure_eq_ok,
      Check.object_eq_ok] at h
    obtain ⟨record, hv, _, _, raws, hraws, rfl⟩ := h
    apply Literal.object
    intro f hf
    obtain ⟨f', hf', _, hnormal⟩ :=
      forall₂_mem_right (normalizeFields_eq_ok.1 hraws) (Record.mem_ofList hf)
    exact ih f'.2 _ (.field hv hf') hnormal
  | operation link =>
    obtain ⟨table, htable, h⟩ := normalize_operation_eq_ok.1 h
    obtain ⟨t, payload, tag, c, raw', hp, htag, hcase, hraw, rfl⟩ := normalize_variant_eq_ok.1 h
    exact literal_pair (.int _) (ih c payload (.operand hp htable htag hcase) hraw)

/-! ## Required fees -/

theorem Source.requiresFee {link : OperationLink} (h : Source .live (.operation link) v d u) :
    all requiresFee d = true := by
  cases h with
  | operand _ htable _ hcase =>
    obtain rfl := Except.ok.inj htable
    exact all_of_mem_cases (allCases_requiresFee_operationTable _) (mem_of_lookup hcase)

theorem Source.feesShown {link : OperationLink} (h : Source .live (.operation link) v d u) :
    FeesShown .live d u := by
  apply feesShown_of_required
  intro nested hnested
  exact zeroFee_eq_false_of_reaches h.requiresFee hnested

/-- In a protocol only the outermost operation may have its fee filled in. -/
theorem feesShown_of_not_hidden {link : OperationLink} (h : ¬ Fee.HiddenIn v) :
    FeesShown .live (.operation link) v := by
  intro link' w hw hzero
  cases hw with
  | self => exact h
  | step hu hw => exact hu.feesShown link' w hw hzero

/-! ## Main results -/

/-- For a codec without zero-fee mode inside, lazy parts make no difference to
    the result or the error; and nothing that any codec gives, from a value or
    from bytes, has a lazy part. -/
theorem laziness_transparent (env : Registries) (c : Codec) :
    ((∀ link, Reaches env c (.operation link) → link.zeroFee = false) →
      ∀ v, normalize env c v = normalize env c v.force) ∧
    (∀ v raw, normalize env c v = .ok raw → Literal raw) ∧
    ∀ r v r', read env c r = (.ok v, r') → Literal v := by
  refine ⟨?_, ?_, ?_⟩
  · intro h v
    exact (normalize_force_of_shown c v (feesShown_of_required h v)).symm
  · intro v raw h
    exact literal_of_normalize h
  · intro r v r' h
    exact literal_of_read h

/-- A transfer with the given fee.  The fields, a number and an id are lazy. -/
def lazyTransfer (fee : Value) : Value :=
  .array [.lazy (.int 0), .lazy (.lazy (.object [
    ("fee", fee),
    ("from", .lazy (.str "1.2.5")),
    ("to", .int 7),
    ("amount", .object [("amount", .lazy (.str "12")), ("asset_id", .str "1.3.0")])]))]

/-- The canonical value of a transfer with such a fee. -/
def transferWithFee (amount : Int) : Value :=
  .array [.int 0, .object [
    ("fee", .object [("amount", .int amount), ("asset_id", .str "1.3.0")]),
    ("from", .str "1.2.5"),
    ("to", .str "1.2.7"),
    ("amount", .object [("amount", .int 12), ("asset_id", .str "1.3.0")]),
    ("extensions", .array [])]]

theorem laziness_transparent_lazyTransfer :
    normalize .live (Protocol.operation {})
        (lazyTransfer (.lazy (.object [("amount", .int 3), ("asset_id", .int 0)]))) =
          .ok (transferWithFee 3) ∧
      (transferWithFee 3).Literal := by
  obtain ⟨hforce, hliteral, _⟩ := laziness_transparent .live (Protocol.operation {})
  have hnormal : normalize .live (Protocol.operation {})
      (lazyTransfer (.lazy (.object [("amount", .int 3), ("asset_id", .int 0)]))) =
        .ok (transferWithFee 3) := by
    rw [hforce fun link hlink => zeroFee_eq_false_of_reaches rfl hlink]
    cbv
  exact ⟨hnormal, hliteral _ _ hnormal⟩

/-- In zero-fee mode lazy parts make no difference as long as no lazy fee stands
    for null.  Where one does, it keeps the zero fee out, and the operation is
    normalized as one with a fee of null; a fee that is missing, or null
    without being lazy, is replaced by a zero fee. -/
theorem normalize_operation_force (env : Registries) (link : OperationLink) (v : Value) :
    (FeesShown env (.operation link) v →
      normalize env (.operation link) v = normalize env (.operation link) v.force) ∧
    (Fee.HiddenIn v → (∀ d u, Source env (.operation link) v d u → FeesShown env d u) →
      normalize env (.operation link) v =
        normalize env (.operation { link with zeroFee := false }) v.force) ∧
    ∀ id payload fields, link.zeroFee = true → v.resolve.asPair? = some (id, payload) →
      payload.resolve = .object fields → (field fields Fee.fieldName).isNull = true →
        normalize env (.operation link) v =
          normalize env (.operation { link with zeroFee := false })
            (.array [id, .object (Record.insert Fee.fieldName (Fee.zero link.feeAsset) fields)]) := by
  refine ⟨?_, ?_, ?_⟩
  · intro h
    exact (normalize_force_of_shown (.operation link) v h).symm
  · intro h hsources
    exact normalize_operation_of_hidden h hsources
  · intro id payload fields hzero hv hpayload hfee
    exact normalize_operation_of_feeless hzero hv hpayload hfee

theorem normalize_operation_force_lazyTransfer :
    normalize .live (Protocol.feeEstimatingOperation {}) (lazyTransfer .null) =
        .ok (transferWithFee 0) ∧
      normalize .live (Protocol.feeEstimatingOperation {}) (lazyTransfer (.lazy .null)) =
        normalize .live (Protocol.operation {}) (lazyTransfer .null).force := by
  have hshown : ¬ Fee.HiddenIn (lazyTransfer .null) := by
    rintro ⟨id, payload, fields, hv, hpayload, fee, hfee, _⟩
    cases hv
    cases hpayload
    cases hfee
  have hhidden : Fee.HiddenIn (lazyTransfer (.lazy .null)) := ⟨_, _, _, rfl, rfl, .null, rfl, rfl⟩
  constructor
  · rw [Protocol.feeEstimatingOperation, (normalize_operation_force _ _ _).1
      (feesShown_of_not_hidden hshown)]
    cbv
  · exact (normalize_operation_force _ _ _).2.1 hhidden fun d u hu => hu.feesShown

/-- A transfer of which nothing is lazy but perhaps the fee. -/
def plainTransfer (fee : Value) : Value :=
  .array [.int 0, .object [
    ("fee", fee),
    ("from", .str "1.2.5"),
    ("to", .int 7),
    ("amount", .object [("amount", .str "12"), ("asset_id", .str "1.3.0")])]]

/-- The fee is null in both, but only one of them has a canonical value. -/
theorem normalize_hiddenFee :
    normalize .live (Protocol.feeEstimatingOperation {}) (plainTransfer (.lazy .null)) =
        .error (((Error.validation (.mismatch "object" .null)).within (.field "fee")).within
          (.variant operationLabel 0)) ∧
      normalize .live (Protocol.feeEstimatingOperation {}) (plainTransfer (.lazy .null)).force =
        .ok (transferWithFee 0) := by
  constructor
  · cbv
  · cbv

end Codec

end ChainCodec
