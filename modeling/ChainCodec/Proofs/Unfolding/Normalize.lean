import ChainCodec.Codec.Normalize

/-! # Normalizing an operation is normalizing with the union behind it

    As for writing, the bound on the nesting of arrays is never reached:
    resolving a lazy value and filling in a fee nest no deeper than what was
    given.  An operation codec normalizes its completed input as the tagged
    union behind its registry does: `normalize_operation`. -/

namespace ChainCodec

/-- A fee that is filled in has no arrays. -/
theorem Fee.arrayDepth_complete_le (asset : String) (fields : Record Value) :
    Value.arrayDepthFields (complete asset fields) ≤ Value.arrayDepthFields fields := by
  unfold complete
  split
  · exact Nat.le_refl _
  · have h := Value.arrayDepthFields_insert_le fieldName (zero asset) fields
    have hz : (zero asset).arrayDepth = 0 := rfl
    omega

theorem Fee.arrayDepth_fillIn_le (asset : String) (v : Value) :
    (fillIn asset v).arrayDepth ≤ v.arrayDepth := by
  unfold fillIn
  cases hp : v.asPair? with
  | none => exact Nat.le_refl _
  | some p =>
    obtain ⟨id, payload⟩ := p
    obtain rfl := Value.asPair?_eq_some.1 hp
    dsimp only
    split
    · rename_i fields hfields
      have h := arrayDepth_complete_le asset fields
      have hd : payload.arrayDepth = Value.arrayDepthFields fields := by
        rw [← Value.arrayDepth_resolve, hfields, Value.arrayDepth]
      simp only [Value.arrayDepth, Value.arrayDepthItems]
      omega
    · exact Nat.le_refl _

namespace Codec

theorem arrayDepth_operationInput_le (link : OperationLink) (v : Value) :
    (operationInput link v).arrayDepth ≤ v.arrayDepth := by
  unfold operationInput
  split
  · have h := Fee.arrayDepth_fillIn_le link.feeAsset v.resolve
    rwa [Value.arrayDepth_resolve] at h
  · exact Nat.le_refl _

namespace NormalizeOperation

/-- Both give the same for operations whose arrays nest at most `n` deep. -/
def AgreeUpTo (n : Nat) (op op' : NormalizeOperation) : Prop :=
  ∀ link v, v.arrayDepth ≤ n → op link v = op' link v

theorem AgreeUpTo.mono {m n : Nat} {op op' : NormalizeOperation} (h : AgreeUpTo n op op')
    (hmn : m ≤ n) : AgreeUpTo m op op' :=
  fun link v hv => h link v (Nat.le_trans hv hmn)

end NormalizeOperation

open NormalizeOperation

mutual

theorem normalizeWith_congr {bytesOf : EncodeElement} {op op' : NormalizeOperation} (c : Codec)
    (v : Value) (h : AgreeUpTo v.arrayDepth op op') :
    normalizeWith bytesOf op c v = normalizeWith bytesOf op' c v := by
  match c with
  | .int _ | .varint | .bool | .bytes _ | .string | .time | .void | .objectId .. | .anyObjectId
  | .publicKey .. | .address .. => simp only [normalizeWith]
  | .operation link => exact h link v (Nat.le_refl _)
  | .optional c =>
    simp only [normalizeWith]
    rw [normalizeWith_congr c v.resolve (h.mono (Nat.le_of_eq v.arrayDepth_resolve))]
  | .vector c =>
    simp only [normalizeWith]
    refine Except.bind_congr_ok fun items hitems => ?_
    have hv : v.arrayDepth = (Value.array items).arrayDepth := by
      rw [← Value.arrayDepth_resolve, Check.array_eq_ok.1 hitems]
    congr 1
    refine traverseFrom_congr fun i item hmem => ?_
    have hitem := Value.arrayDepth_lt_array hmem
    rw [normalizeWith_congr c item (h.mono (by omega))]
  | .set c =>
    simp only [normalizeWith]
    refine Except.bind_congr_ok fun items hitems => ?_
    congr 1
    refine traverseFrom_congr fun i item hmem => ?_
    have hitem := Check.arrayDepth_elements_le hitems hmem
    rw [Value.arrayDepth_resolve] at hitem
    rw [normalizeWith_congr c item (h.mono hitem)]
  | .map c d =>
    simp only [normalizeWith]
    refine Except.bind_congr_ok fun pairs hpairs => ?_
    congr 1
    refine traverseFrom_congr fun i p hmem => ?_
    have hp := Check.arrayDepth_entries_le hpairs hmem
    rw [Value.arrayDepth_resolve] at hp
    rw [normalizeWith_congr c p.1 (h.mono hp.1), normalizeWith_congr d p.2 (h.mono hp.2)]
  | .pair c d =>
    simp only [normalizeWith]
    refine Except.bind_congr_ok fun p hp => ?_
    have hp := Value.arrayDepth_lt_of_asPair? (Check.pair_eq_ok.1 hp)
    rw [Value.arrayDepth_resolve] at hp
    rw [normalizeWith_congr c p.1 (h.mono (by omega)),
      normalizeWith_congr d p.2 (h.mono (by omega))]
  | .variant label cases =>
    simp only [normalizeWith]
    refine Except.bind_congr_ok fun p hp => Except.bind_congr_ok fun tag _ => ?_
    have hp := Value.arrayDepth_lt_of_asPair? (Check.tagged_eq_ok.1 hp)
    rw [Value.arrayDepth_resolve] at hp
    rw [normalizeCase_congr label tag cases p.2 (h.mono (by omega))]
  | .struct fields _ =>
    simp only [normalizeWith]
    refine Except.bind_congr_ok fun record hrecord => ?_
    have hv : v.arrayDepth = Value.arrayDepthFields record := by
      rw [← v.arrayDepth_resolve, Check.object_eq_ok.1 hrecord, Value.arrayDepth]
    rw [normalizeFields_congr fields record (h.mono (Nat.le_of_eq hv.symm))]

theorem normalizeCase_congr {bytesOf : EncodeElement} {op op' : NormalizeOperation}
    (label : String) (tag : UInt32) (cases : List (UInt32 × Codec)) (payload : Value)
    (h : AgreeUpTo payload.arrayDepth op op') :
    normalizeCase bytesOf op label tag cases payload =
      normalizeCase bytesOf op' label tag cases payload := by
  match cases with
  | [] => simp only [normalizeCase]
  | (_, c) :: rest =>
    simp only [normalizeCase]
    rw [normalizeWith_congr c payload h, normalizeCase_congr label tag rest payload h]

theorem normalizeFields_congr {bytesOf : EncodeElement} {op op' : NormalizeOperation}
    (fields : List (String × Codec)) (record : Record Value)
    (h : AgreeUpTo (Value.arrayDepthFields record) op op') :
    normalizeFields bytesOf op fields record = normalizeFields bytesOf op' fields record := by
  match fields with
  | [] => simp only [normalizeFields]
  | (name, c) :: rest =>
    simp only [normalizeFields]
    rw [normalizeWith_congr c _ (h.mono (Value.arrayDepth_field_le record name)),
      normalizeFields_congr rest record h]

end

/-- The payload of a union lies one array deeper than the union. -/
theorem normalizeWith_variant_congr {bytesOf : EncodeElement} {op op' : NormalizeOperation}
    (label : String) (table : CaseTable) (v : Value)
    (h : ∀ link w, w.arrayDepth < v.arrayDepth → op link w = op' link w) :
    normalizeWith bytesOf op (.variant label table) v =
      normalizeWith bytesOf op' (.variant label table) v := by
  simp only [normalizeWith]
  refine Except.bind_congr_ok fun p hp => Except.bind_congr_ok fun tag _ => ?_
  have hp := Value.arrayDepth_lt_of_asPair? (Check.tagged_eq_ok.1 hp)
  rw [Value.arrayDepth_resolve] at hp
  rw [normalizeCase_congr label tag table p.2 fun link w hw => h link w (by omega)]

theorem normalizeOperation_congr (env : Registries) {fuel fuel' : Nat} (link : OperationLink)
    (v : Value) (h : v.arrayDepth < fuel) (h' : v.arrayDepth < fuel') :
    normalizeOperation env fuel link v = normalizeOperation env fuel' link v := by
  induction fuel generalizing fuel' link v with
  | zero => omega
  | succ fuel ih =>
    obtain ⟨fuel', rfl⟩ : ∃ k, fuel' = k + 1 := ⟨fuel' - 1, by omega⟩
    simp only [normalizeOperation]
    refine Except.bind_congr_ok fun union hunion => ?_
    obtain ⟨table, _, rfl⟩ := Registries.unionOf_eq_ok.1 hunion
    have hinput := arrayDepth_operationInput_le link v
    exact normalizeWith_variant_congr _ table _ fun link w hw => ih link w (by omega) (by omega)

/-- An operation is normalized as the union of the table that is found for it. -/
theorem normalize_operation (env : Registries) (link : OperationLink) (v : Value) :
    normalize env (.operation link) v =
      (do
        let union ← env.unionOf link.registry
        normalize env union (operationInput link v)) := by
  change normalizeOperation env (v.arrayDepth + 1) link v = _
  rw [normalizeOperation]
  refine Except.bind_congr_ok fun union hunion => ?_
  obtain ⟨table, _, rfl⟩ := Registries.unionOf_eq_ok.1 hunion
  have hinput := arrayDepth_operationInput_le link v
  exact normalizeWith_variant_congr _ table _ fun link w hw =>
    normalizeOperation_congr env link w (by omega) (by omega)

end Codec

end ChainCodec
