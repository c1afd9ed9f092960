import ChainCodec.Codec.Write

/-! # Writing an operation is writing the union behind it

    Operations are written with a bound on the nesting of arrays, because the
    table behind a registry is no part of the codec.  The bound is never
    reached: whatever is large enough gives the same bytes.  So an operation
    codec writes what the tagged union behind its registry writes, which is
    the equation `write_operation`. -/

namespace ChainCodec.Codec

namespace WriteOperation

/-- Both write the same for operations whose arrays nest at most `n` deep. -/
def AgreeUpTo (n : Nat) (op op' : WriteOperation) : Prop :=
  ∀ link v, v.arrayDepth ≤ n → op link v = op' link v

theorem AgreeUpTo.mono {m n : Nat} {op op' : WriteOperation} (h : AgreeUpTo n op op')
    (hmn : m ≤ n) : AgreeUpTo m op op' :=
  fun link v hv => h link v (Nat.le_trans hv hmn)

end WriteOperation

open WriteOperation

mutual

theorem writeWith_congr {op op' : WriteOperation} (c : Codec) (v : Value)
    (h : AgreeUpTo v.arrayDepth op op') : writeWith op c v = writeWith op' c v := by
  match c with
  | .int _ | .varint | .bool | .bytes _ | .string | .time | .void | .objectId .. | .anyObjectId
  | .publicKey .. | .address .. => simp only [writeWith]
  | .operation link => exact h link v (Nat.le_refl _)
  | .optional c =>
    simp only [writeWith]
    rw [writeWith_congr c v h]
  | .vector c | .set c =>
    simp only [writeWith]
    refine Action.liftM_bind_congr fun items hitems => ?_
    obtain rfl := Check.array_eq_ok.1 hitems
    congr 1
    funext _
    congr 1
    refine traverseFrom_congr fun i item hmem => ?_
    rw [writeWith_congr c item (h.mono (Nat.le_of_lt (Value.arrayDepth_lt_array hmem)))]
  | .map c d =>
    simp only [writeWith]
    refine Action.liftM_bind_congr fun items hitems => ?_
    obtain rfl := Check.canonicalEntries_eq_ok.1 hitems
    congr 1
    funext _
    congr 1
    refine traverseFrom_congr fun i entry hmem => Action.liftM_bind_congr fun p hp => ?_
    have hentry := Value.arrayDepth_lt_array hmem
    have hp := Value.arrayDepth_lt_of_asPair? (Check.canonicalEntry_eq_ok.1 hp)
    rw [writeWith_congr c p.1 (h.mono (by omega)), writeWith_congr d p.2 (h.mono (by omega))]
  | .pair c d =>
    simp only [writeWith]
    refine Action.liftM_bind_congr fun p hp => ?_
    have hp := Value.arrayDepth_lt_of_asPair? (Check.pair_eq_ok.1 hp)
    rw [writeWith_congr c p.1 (h.mono (by omega)), writeWith_congr d p.2 (h.mono (by omega))]
  | .variant label cases =>
    simp only [writeWith]
    refine Action.liftM_bind_congr fun p hp => Action.liftM_bind_congr fun tag _ => ?_
    have hp := Value.arrayDepth_lt_of_asPair? (Check.tagged_eq_ok.1 hp)
    exact writeCase_congr label tag cases p.2 (h.mono (by omega))
  | .struct fields _ =>
    simp only [writeWith]
    refine Action.liftM_bind_congr fun record hrecord => ?_
    obtain rfl := Check.object_eq_ok.1 hrecord
    exact writeFields_congr fields record h

theorem writeCase_congr {op op' : WriteOperation} (label : String) (tag : UInt32)
    (cases : List (UInt32 × Codec)) (payload : Value)
    (h : AgreeUpTo payload.arrayDepth op op') :
    writeCase op label tag cases payload = writeCase op' label tag cases payload := by
  match cases with
  | [] => simp only [writeCase]
  | (_, c) :: rest =>
    simp only [writeCase]
    rw [writeWith_congr c payload h, writeCase_congr label tag rest payload h]

theorem writeFields_congr {op op' : WriteOperation} (fields : List (String × Codec))
    (record : Record Value) (h : AgreeUpTo (Value.arrayDepthFields record) op op') :
    writeFields op fields record = writeFields op' fields record := by
  match fields with
  | [] => simp only [writeFields]
  | (name, c) :: rest =>
    simp only [writeFields]
    rw [writeWith_congr c _ (h.mono (Value.arrayDepth_field_le record name)),
      writeFields_congr rest record h]

end

/-- The payload of a union lies one array deeper than the union. -/
theorem writeWith_variant_congr {op op' : WriteOperation} (label : String) (table : CaseTable)
    (v : Value) (h : ∀ link w, w.arrayDepth < v.arrayDepth → op link w = op' link w) :
    writeWith op (.variant label table) v = writeWith op' (.variant label table) v := by
  simp only [writeWith]
  refine Action.liftM_bind_congr fun p hp => Action.liftM_bind_congr fun tag _ => ?_
  have hp := Value.arrayDepth_lt_of_asPair? (Check.tagged_eq_ok.1 hp)
  exact writeCase_congr label tag table p.2 fun link w hw => h link w (by omega)

theorem writeOperation_congr (env : Registries) {fuel fuel' : Nat} (link : OperationLink)
    (v : Value) (h : v.arrayDepth < fuel) (h' : v.arrayDepth < fuel') :
    writeOperation env fuel link v = writeOperation env fuel' link v := by
  induction fuel generalizing fuel' link v with
  | zero => omega
  | succ fuel ih =>
    obtain ⟨fuel', rfl⟩ : ∃ k, fuel' = k + 1 := ⟨fuel' - 1, by omega⟩
    simp only [writeOperation]
    refine Action.liftM_bind_congr fun union hunion => ?_
    obtain ⟨table, _, rfl⟩ := Registries.unionOf_eq_ok.1 hunion
    exact writeWith_variant_congr _ table v fun link w hw => ih link w (by omega) (by omega)

theorem write_operation (env : Registries) (link : OperationLink) (v : Value) :
    write env (.operation link) v =
      (do
        let union ← env.unionOf link.registry
        write env union v) := by
  change writeOperation env (v.arrayDepth + 1) link v = _
  rw [writeOperation]
  refine Action.liftM_bind_congr fun union hunion => ?_
  obtain ⟨table, _, rfl⟩ := Registries.unionOf_eq_ok.1 hunion
  exact writeWith_variant_congr _ table v fun link w hw =>
    writeOperation_congr env link w (by omega) (by omega)

end ChainCodec.Codec
