import ChainCodec.Codec.Render

/-! # Rendering an operation is rendering the union behind it

    As for writing, the bound on the nesting of arrays is never reached, and
    an operation codec renders what the tagged union behind its registry
    renders: `render_operation`. -/

namespace ChainCodec.Codec

namespace RenderOperation

/-- Both render the same for operations whose arrays nest at most `n` deep. -/
def AgreeUpTo (n : Nat) (op op' : RenderOperation) : Prop :=
  ∀ link v, v.arrayDepth ≤ n → op link v = op' link v

theorem AgreeUpTo.mono {m n : Nat} {op op' : RenderOperation} (h : AgreeUpTo n op op')
    (hmn : m ≤ n) : AgreeUpTo m op op' :=
  fun link v hv => h link v (Nat.le_trans hv hmn)

end RenderOperation

open RenderOperation

mutual

theorem renderWith_congr {op op' : RenderOperation} (c : Codec) (v : Value)
    (h : AgreeUpTo v.arrayDepth op op') : renderWith op c v = renderWith op' c v := by
  match c with
  | .int _ | .varint | .bool | .bytes _ | .string | .time | .void | .objectId .. | .anyObjectId
  | .publicKey .. | .address .. => simp only [renderWith]
  | .operation link => exact h link v (Nat.le_refl _)
  | .optional c =>
    simp only [renderWith]
    rw [renderWith_congr c v h]
  | .vector c | .set c =>
    simp only [renderWith]
    refine Except.bind_congr_ok fun items hitems => ?_
    obtain rfl := Check.array_eq_ok.1 hitems
    congr 1
    refine traverseFrom_congr fun i item hmem => ?_
    rw [renderWith_congr c item (h.mono (Nat.le_of_lt (Value.arrayDepth_lt_array hmem)))]
  | .map c d =>
    simp only [renderWith]
    refine Except.bind_congr_ok fun items hitems => ?_
    obtain rfl := Check.canonicalEntries_eq_ok.1 hitems
    congr 1
    refine traverseFrom_congr fun i entry hmem => Except.bind_congr_ok fun p hp => ?_
    have hentry := Value.arrayDepth_lt_array hmem
    have hp := Value.arrayDepth_lt_of_asPair? (Check.canonicalEntry_eq_ok.1 hp)
    rw [renderWith_congr c p.1 (h.mono (by omega)), renderWith_congr d p.2 (h.mono (by omega))]
  | .pair c d =>
    simp only [renderWith]
    refine Except.bind_congr_ok fun p hp => ?_
    have hp := Value.arrayDepth_lt_of_asPair? (Check.pair_eq_ok.1 hp)
    rw [renderWith_congr c p.1 (h.mono (by omega)), renderWith_congr d p.2 (h.mono (by omega))]
  | .variant label cases =>
    simp only [renderWith]
    refine Except.bind_congr_ok fun p hp => Except.bind_congr_ok fun tag _ => ?_
    have hp := Value.arrayDepth_lt_of_asPair? (Check.tagged_eq_ok.1 hp)
    rw [renderCase_congr label tag cases p.2 (h.mono (by omega))]
  | .struct fields _ =>
    simp only [renderWith]
    refine Except.bind_congr_ok fun record hrecord => ?_
    obtain rfl := Check.object_eq_ok.1 hrecord
    rw [renderFields_congr fields record h]

theorem renderCase_congr {op op' : RenderOperation} (label : String) (tag : UInt32)
    (cases : List (UInt32 × Codec)) (payload : Value)
    (h : AgreeUpTo payload.arrayDepth op op') :
    renderCase op label tag cases payload = renderCase op' label tag cases payload := by
  match cases with
  | [] => simp only [renderCase]
  | (_, c) :: rest =>
    simp only [renderCase]
    rw [renderWith_congr c payload h, renderCase_congr label tag rest payload h]

theorem renderFields_congr {op op' : RenderOperation} (fields : List (String × Codec))
    (record : Record Value) (h : AgreeUpTo (Value.arrayDepthFields record) op op') :
    renderFields op fields record = renderFields op' fields record := by
  match fields with
  | [] => simp only [renderFields]
  | (name, c) :: rest =>
    simp only [renderFields]
    rw [renderWith_congr c _ (h.mono (Value.arrayDepth_field_le record name)),
      renderFields_congr rest record h]

end

/-- The payload of a union lies one array deeper than the union. -/
theorem renderWith_variant_congr {op op' : RenderOperation} (label : String) (table : CaseTable)
    (v : Value) (h : ∀ link w, w.arrayDepth < v.arrayDepth → op link w = op' link w) :
    renderWith op (.variant label table) v = renderWith op' (.variant label table) v := by
  simp only [renderWith]
  refine Except.bind_congr_ok fun p hp => Except.bind_congr_ok fun tag _ => ?_
  have hp := Value.arrayDepth_lt_of_asPair? (Check.tagged_eq_ok.1 hp)
  rw [renderCase_congr label tag table p.2 fun link w hw => h link w (by omega)]

theorem renderOperation_congr (env : Registries) {fuel fuel' : Nat} (link : OperationLink)
    (v : Value) (h : v.arrayDepth < fuel) (h' : v.arrayDepth < fuel') :
    renderOperation env fuel link v = renderOperation env fuel' link v := by
  induction fuel generalizing fuel' link v with
  | zero => omega
  | succ fuel ih =>
    obtain ⟨fuel', rfl⟩ : ∃ k, fuel' = k + 1 := ⟨fuel' - 1, by omega⟩
    simp only [renderOperation]
    refine Except.bind_congr_ok fun union hunion => ?_
    obtain ⟨table, _, rfl⟩ := Registries.unionOf_eq_ok.1 hunion
    exact renderWith_variant_congr _ table v fun link w hw => ih link w (by omega) (by omega)

theorem render_operation (env : Registries) (link : OperationLink) (v : Value) :
    render env (.operation link) v =
      (do
        let union ← env.unionOf link.registry
        render env union v) := by
  change renderOperation env (v.arrayDepth + 1) link v = _
  rw [renderOperation]
  refine Except.bind_congr_ok fun union hunion => ?_
  obtain ⟨table, _, rfl⟩ := Registries.unionOf_eq_ok.1 hunion
  exact renderWith_variant_congr _ table v fun link w hw =>
    renderOperation_congr env link w (by omega) (by omega)

end ChainCodec.Codec
