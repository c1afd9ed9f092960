import ChainCodec.Proofs.Advance

/-! # Reading an operation is reading the union behind it

    Operations are read with a bound on the unions that may still be opened.
    Each operation opens one, and no action leaves a union open, so the bound
    is never reached.  An operation codec reads what the tagged union behind
    its registry reads: `read_operation`. -/

namespace ChainCodec

/-- Two actions agree at a reader if their first steps do, and what follows
    agrees at all readers with as much room. -/
theorem Read.bind_congr {α β : Type} {x y : Read α} {f g : α → Read β} {r : Reader}
    (hx : x.Advancing) (h : x r = y r) (hf : ∀ a r', r'.room = r.room → f a r' = g a r') :
    (x >>= f) r = (y >>= g) r := by
  simp only [Action.bind_apply, ← h]
  rcases hr : x r with ⟨_ | a, r'⟩
  · rfl
  · exact hf a r' (hx.of_eq hr).room

theorem Read.within_congr {α : Type} {x y : Read α} {r : Reader} (h : x r = y r) (c : Context) :
    Read.within c x r = Read.within c y r := by
  simp only [Read.within, Action.mapError, h]

theorem Read.repeatFrom_congr {α : Type} {f g : Nat → Read α} {r : Reader} {start count : Nat}
    (hf : ∀ i, (f i).Advancing) (h : ∀ i r', r'.room = r.room → f i r' = g i r') :
    repeatFrom f start count r = repeatFrom g start count r := by
  induction count generalizing start r with
  | zero => rfl
  | succ count ih =>
    refine Read.bind_congr (hf start) (h start r rfl) fun a r' hr => ?_
    refine Read.bind_congr (.repeatFrom hf _ _) ?_ fun as r'' _ => rfl
    exact ih fun i r'' hr' => h i r'' (hr'.trans hr)

/-- Inside one more union there is less room. -/
theorem Read.nested_congr {α : Type} {x y : Read α} {r : Reader}
    (h : ∀ r', r'.room < r.room → x r' = y r') : Read.nested x r = Read.nested y r := by
  by_cases hr : r.maxDepth ≤ r.depth
  · simp only [Read.nested, Action.bind_apply, Read.enter, hr, if_true]
  · simp only [Read.nested, Action.bind_apply, Read.enter, hr, if_false, Read.thenLeave]
    rw [h _ (by simp only [Reader.room]; omega)]

namespace Codec

namespace ReadOperation

/-- Both read the same where at most `n` unions may still be opened. -/
def AgreeUpTo (n : Nat) (op op' : ReadOperation) : Prop :=
  ∀ link (r : Reader), r.room ≤ n → op link r = op' link r

theorem AgreeUpTo.mono {m n : Nat} {op op' : ReadOperation} (h : AgreeUpTo n op op')
    (hmn : m ≤ n) : AgreeUpTo m op op' :=
  fun link r hr => h link r (Nat.le_trans hr hmn)

end ReadOperation

open ReadOperation Read

mutual

theorem readWith_congr {op op' : ReadOperation} (hop : ∀ link, (op link).Advancing) (c : Codec)
    (r : Reader) (h : AgreeUpTo r.room op op') : readWith op c r = readWith op' c r := by
  match c with
  | .int _ | .varint | .bool | .bytes _ | .string | .time | .void | .objectId .. | .anyObjectId
  | .publicKey .. | .address .. => simp only [readWith]
  | .operation link => exact h link r (Nat.le_refl _)
  | .vector c =>
    simp only [readWith]
    refine bind_congr advancing_varint rfl fun n r' hr => ?_
    refine bind_congr (.repeatFrom (fun i => (readWith_advancing hop c).within _) _ _) ?_
      fun _ _ _ => rfl
    refine repeatFrom_congr (fun i => (readWith_advancing hop c).within _) fun i r'' hr' => ?_
    exact within_congr (readWith_congr hop c r'' (h.mono (by omega))) _
  | .set c =>
    simp only [readWith]
    have hc := readWith_advancing hop c
    refine bind_congr advancing_varint rfl fun n r' hr => ?_
    have hstep : ∀ i, Advancing (do
        let start ← position
        let item ← Read.within (.element i) (readWith op c)
        let bs ← since start
        pure (bs, item)) := fun i =>
      advancing_position.bind fun start => (hc.within _).bind
        fun _ => (advancing_since start).bind fun _ => advancing_pure _
    refine bind_congr (.repeatFrom hstep _ _) ?_ fun _ _ _ => rfl
    refine repeatFrom_congr hstep fun i r₁ h₁ => ?_
    refine bind_congr advancing_position rfl fun start r₂ h₂ => ?_
    refine bind_congr (hc.within _) ?_ fun _ _ _ => rfl
    exact within_congr (readWith_congr hop c r₂ (h.mono (by omega))) _
  | .map c d =>
    simp only [readWith]
    have hc := readWith_advancing hop c
    have hd := readWith_advancing hop d
    refine bind_congr advancing_varint rfl fun n r' hr => ?_
    have hstep : ∀ i, Advancing (do
        let start ← position
        let key ← Read.within (.key i) (readWith op c)
        let bs ← since start
        let value ← Read.within (.value i) (readWith op d)
        pure (bs, Value.array [key, value])) := fun i =>
      advancing_position.bind fun start => (hc.within _).bind
        fun _ => (advancing_since start).bind fun _ => (hd.within _).bind
          fun _ => advancing_pure _
    refine bind_congr (.repeatFrom hstep _ _) ?_ fun _ _ _ => rfl
    refine repeatFrom_congr hstep fun i r₁ h₁ => ?_
    refine bind_congr advancing_position rfl fun start r₂ h₂ => ?_
    refine bind_congr (hc.within _) ?_ fun key r₃ h₃ => ?_
    · exact within_congr (readWith_congr hop c r₂ (h.mono (by omega))) _
    · refine bind_congr (advancing_since start) rfl fun bs r₄ h₄ => ?_
      refine bind_congr (hd.within _) ?_ fun _ _ _ => rfl
      exact within_congr (readWith_congr hop d r₄ (h.mono (by omega))) _
  | .optional c =>
    simp only [readWith]
    refine bind_congr advancing_byte rfl fun b r' hr => ?_
    split
    · rfl
    · split
      · exact readWith_congr hop c r' (h.mono (by omega))
      · rfl
  | .pair c d =>
    simp only [readWith]
    refine bind_congr ((readWith_advancing hop c).within _) ?_ fun a r' hr => ?_
    · exact within_congr (readWith_congr hop c r h) _
    · refine bind_congr ((readWith_advancing hop d).within _) ?_ fun _ _ _ => rfl
      exact within_congr (readWith_congr hop d r' (h.mono (by omega))) _
  | .variant label cases =>
    simp only [readWith]
    refine bind_congr advancing_varint rfl fun tag r' hr => ?_
    refine bind_congr (readCase_advancing hop label tag cases) ?_ fun _ _ _ => rfl
    exact readCase_congr hop label tag cases r' fun link r'' hr' => h link r'' (by omega)
  | .struct fields _ =>
    simp only [readWith]
    refine bind_congr (readFields_advancing hop fields) ?_ fun _ _ _ => rfl
    exact readFields_congr hop fields r h

/-- The payload is read inside one more union. -/
theorem readCase_congr {op op' : ReadOperation} (hop : ∀ link, (op link).Advancing)
    (label : String) (tag : UInt32) (cases : List (UInt32 × Codec)) (r : Reader)
    (h : ∀ link (r' : Reader), r'.room < r.room → op link r' = op' link r') :
    readCase op label tag cases r = readCase op' label tag cases r := by
  match cases with
  | [] => simp only [readCase]
  | (_, c) :: rest =>
    simp only [readCase]
    split
    · refine nested_congr fun r' hr => within_congr ?_ _
      exact readWith_congr hop c r' fun link r'' hr' => h link r'' (by omega)
    · exact readCase_congr hop label tag rest r h

theorem readFields_congr {op op' : ReadOperation} (hop : ∀ link, (op link).Advancing)
    (fields : List (String × Codec)) (r : Reader) (h : AgreeUpTo r.room op op') :
    readFields op fields r = readFields op' fields r := by
  match fields with
  | [] => simp only [readFields]
  | (_, c) :: rest =>
    simp only [readFields]
    refine bind_congr ((readWith_advancing hop c).within _) ?_ fun a r' hr => ?_
    · exact within_congr (readWith_congr hop c r h) _
    · refine bind_congr (readFields_advancing hop rest) ?_ fun _ _ _ => rfl
      exact readFields_congr hop rest r' (h.mono (by omega))

end

theorem readWith_variant_congr {op op' : ReadOperation} (hop : ∀ link, (op link).Advancing)
    (label : String) (table : CaseTable) (r : Reader)
    (h : ∀ link (r' : Reader), r'.room < r.room → op link r' = op' link r') :
    readWith op (.variant label table) r = readWith op' (.variant label table) r := by
  simp only [readWith]
  refine bind_congr advancing_varint rfl fun tag r' hr => ?_
  refine bind_congr (readCase_advancing hop label tag table) ?_ fun _ _ _ => rfl
  exact readCase_congr hop label tag table r' fun link r'' hr' => h link r'' (by omega)

theorem readOperation_congr (env : Registries) {fuel fuel' : Nat} (link : OperationLink)
    (r : Reader) (h : r.room < fuel) (h' : r.room < fuel') :
    readOperation env fuel link r = readOperation env fuel' link r := by
  induction fuel generalizing fuel' link r with
  | zero => omega
  | succ fuel ih =>
    obtain ⟨fuel', rfl⟩ : ∃ k, fuel' = k + 1 := ⟨fuel' - 1, by omega⟩
    simp only [readOperation]
    refine Action.bind_congr_at fun union r' hunion => ?_
    obtain ⟨hresult, rfl⟩ := Prod.mk.inj hunion
    cases hu : env.unionOf link.registry with
    | error e => rw [hu] at hresult; cases hresult
    | ok u =>
      rw [hu] at hresult
      cases hresult
      obtain ⟨table, _, rfl⟩ := Registries.unionOf_eq_ok.1 hu
      exact readWith_variant_congr (readOperation_advancing env fuel) _ table r
        fun link r' hr => ih link r' (by omega) (by omega)

theorem read_operation (env : Registries) (link : OperationLink) :
    read env (.operation link) =
      (do
        let union ← ofResult (env.unionOf link.registry)
        read env union) := by
  funext r
  change readOperation env (r.room + 1) link r = _
  rw [readOperation]
  refine Action.bind_congr_at fun union r' hunion => ?_
  obtain ⟨hresult, rfl⟩ := Prod.mk.inj hunion
  cases hu : env.unionOf link.registry with
  | error e => rw [hu] at hresult; cases hresult
  | ok u =>
    rw [hu] at hresult
    cases hresult
    obtain ⟨table, _, rfl⟩ := Registries.unionOf_eq_ok.1 hu
    exact readWith_variant_congr (readOperation_advancing env r.room) _ table r
      fun link r' hr => readOperation_congr env link r' (by omega) (by omega)

/-! ## Composites -/

section Composites

variable (env : Registries) (c d : Codec)

theorem read_vector :
    read env (.vector c) = Read.varint >>= fun n =>
      repeatFrom (fun i => within (.element i) (read env c)) 0 n.toNat >>= fun items =>
        pure (.array items) := by
  simp only [read, readWith]

theorem read_set :
    read env (.set c) = Read.varint >>= fun n =>
      repeatFrom (fun i => do
        let start ← position
        let item ← within (.element i) (read env c)
        let bs ← since start
        pure (bs, item)) 0 n.toNat >>= ordered .duplicateElement := by
  simp only [read, readWith]

theorem read_map :
    read env (.map c d) = Read.varint >>= fun n =>
      repeatFrom (fun i => do
        let start ← position
        let key ← within (.key i) (read env c)
        let bs ← since start
        let value ← within (.value i) (read env d)
        pure (bs, Value.array [key, value])) 0 n.toNat >>= ordered .duplicateKey := by
  simp only [read, readWith]

theorem read_pair :
    read env (.pair c d) = (do
      let a ← within (.element 0) (read env c)
      let b ← within (.element 1) (read env d)
      pure (.array [a, b])) := by
  simp only [read, readWith]

end Composites

end Codec

end ChainCodec
