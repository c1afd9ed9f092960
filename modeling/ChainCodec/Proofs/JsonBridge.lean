import ChainCodec.Proofs.JsonSpelling
import ChainCodec.Proofs.Numerals
import Mathlib

/-! # What the bridge to JSON keeps

    JSON has no place for bytes, for lazy parts, and for integers that fit 64
    bits neither signed nor unsigned.  A value without any of them comes back
    from JSON as it was, with the fields of its objects in the same order.
    Whatever is written is exact JSON, whose numbers are integers of 64 bits,
    and exact JSON is written again as it was read.

    Selectors name a place in a tree.  A value and its JSON have the same
    places, so one can say of each integer what stands for it: the number
    itself, or else the numeral that denotes it. -/

namespace ChainCodec

/-! ## Numerals -/

namespace Decimal

/-- The text of an integer denotes this integer, whatever its size. -/
theorem numeral_render (n : Int) : Numeral (render n).toList n := by
  have hne : renderNat n.natAbs ≠ [] := renderNat_ne_nil _
  have hdigits : ∀ d ∈ renderNat n.natAbs, d.isDigit = true :=
    fun _ hd => isDigit_of_mem_renderNat hd
  unfold render
  by_cases h : n < 0
  · have hvalue : -((valueOf (renderNat n.natAbs) : Nat) : Int) = n := by
      rw [valueOf_renderNat]
      omega
    rw [if_pos h, String.toList_ofList]
    have hnumeral := Numeral.negated hne hdigits
    rwa [hvalue] at hnumeral
  · have hvalue : ((valueOf (renderNat n.natAbs) : Nat) : Int) = n := by
      rw [valueOf_renderNat]
      omega
    rw [if_neg h, String.toList_ofList]
    have hnumeral := Numeral.plain hne hdigits
    rwa [hvalue] at hnumeral

end Decimal

/-! ## Places in a tree -/

/-- One step down into an array or an object. -/
inductive Selector where
  | item (index : Nat)
  | field (name : String)
  deriving DecidableEq, Repr

namespace Value

def child? (s : Selector) (v : Value) : Option Value :=
  match s with
  | .item i => v.resolve.asArray?.bind fun items => items[i]?
  | .field name => v.resolve.get? name

/-- What stands at a place.  Lazy values on the way count as what they stand
    for. -/
def at? : List Selector → Value → Option Value
  | [], v => some v.resolve
  | s :: path, v => (v.child? s).bind (at? path)

end Value

namespace Json

def child? : Selector → Json → Option Json
  | .item i, .arr items => items[i]?
  | .field name, .obj fields => Record.get? name fields
  | _, _ => none

def at? : List Selector → Json → Option Json
  | [], j => some j
  | s :: path, j => (j.child? s).bind (at? path)

end Json

namespace Value

theorem toJson_resolve (v : Value) : v.resolve.toJson = v.toJson := by
  fun_induction resolve v with
  | case1 v ih => exact ih
  | case2 v _ => rfl

/-- The parts of the JSON are the JSON of the parts. -/
theorem child?_toJson (s : Selector) (v : Value) :
    v.toJson.child? s = (v.child? s).map toJson := by
  rw [← toJson_resolve]
  unfold child?
  cases h : v.resolve with
  | lazy w => exact absurd h (resolve_ne_lazy v w)
  | array items =>
    cases s with
    | item i =>
      show (toJsonItems items)[i]? = items[i]?.map toJson
      rw [toJsonItems_eq, List.getElem?_map]
    | field name => rfl
  | object fields =>
    cases s with
    | item i => rfl
    | field name =>
      show Record.get? name (toJsonFields fields) = (Record.get? name fields).map toJson
      rw [toJsonFields_eq]
      exact Record.get?_mapValues toJson fields name
  | int n =>
    -- Whichever of the two stands for an integer, it has no parts.
    show (intToJson n).child? s = _
    unfold intToJson
    split <;> cases s <;> rfl
  | _ => cases s <;> rfl

theorem at?_toJson (path : List Selector) (v : Value) :
    v.toJson.at? path = (v.at? path).map toJson := by
  induction path generalizing v with
  | nil =>
    show some v.toJson = some v.resolve.toJson
    rw [toJson_resolve]
  | cons s path ih =>
    show (v.toJson.child? s).bind (Json.at? path) = ((v.child? s).bind (at? path)).map toJson
    rw [child?_toJson]
    cases v.child? s with
    | none => rfl
    | some w => exact ih w

/-! ## Values that JSON expresses -/

theorem intToJson_of_fits {n : Int} (h : -2 ^ 63 ≤ n ∧ n ≤ 2 ^ 64 - 1) :
    intToJson n = .int n := by
  have hfits : fitsWord n = true := fitsWord_iff.2 (by omega)
  rw [intToJson, if_pos hfits]

theorem intToJson_of_not_fits {n : Int} (h : ¬ (-2 ^ 63 ≤ n ∧ n ≤ 2 ^ 64 - 1)) :
    intToJson n = .str (Decimal.render n) := by
  have hwide : ¬ fitsWord n = true := by
    rw [fitsWord_iff]
    omega
  rw [intToJson, if_neg hwide]

/-- The value has no bytes, no lazy parts, and no integers outside the two
    64-bit ranges. -/
inductive Expressible : Value → Prop
  | null : Expressible .null
  | bool (b : Bool) : Expressible (.bool b)
  | int {n : Int} (hlow : -2 ^ 63 ≤ n) (hhigh : n ≤ 2 ^ 64 - 1) : Expressible (.int n)
  | str (s : String) : Expressible (.str s)
  | array {items : List Value} (h : ∀ v ∈ items, Expressible v) : Expressible (.array items)
  | object {fields : Record Value} (h : ∀ f ∈ fields, Expressible f.2) :
      Expressible (.object fields)

theorem Expressible.ofJson_toJson {v : Value} (h : Expressible v) : ofJson v.toJson = v := by
  induction h with
  | null | bool _ | str _ => rfl
  | int hlow hhigh => rw [toJson, intToJson_of_fits ⟨hlow, hhigh⟩, ofJson_int]
  | @array items _ ih =>
    rw [toJson, ofJson, toJsonItems_eq, ofJsonItems_eq, List.map_map]
    exact congrArg Value.array ((List.map_congr_left ih).trans (List.map_id items))
  | @object fields _ ih =>
    rw [toJson, ofJson, toJsonFields_eq, ofJsonFields_eq, List.map_map]
    -- Each field is read where it was written, so the order is kept as well.
    have hfields : ∀ f ∈ fields, (f.1, ofJson f.2.toJson) = f :=
      fun f hf => Prod.ext rfl (ih f hf)
    exact congrArg Value.object ((List.map_congr_left hfields).trans (List.map_id fields))

end Value

/-! ## Exact JSON -/

/-- Every number in the JSON is an integer of one of the two 64-bit ranges. -/
inductive Json.Exact : Json → Prop
  | null : Exact .null
  | bool (b : Bool) : Exact (.bool b)
  | int {n : Int} (hlow : -2 ^ 63 ≤ n) (hhigh : n ≤ 2 ^ 64 - 1) : Exact (.int n)
  | str (s : String) : Exact (.str s)
  | arr {items : List Json} (h : ∀ j ∈ items, Exact j) : Exact (.arr items)
  | obj {fields : Record Json} (h : ∀ f ∈ fields, Exact f.2) : Exact (.obj fields)

namespace Value

/-- Exact JSON is written again as it was read. -/
theorem toJson_ofJson {j : Json} (h : j.Exact) : (ofJson j).toJson = j := by
  induction h with
  | null | bool _ | str _ => rfl
  | int hlow hhigh => rw [ofJson_int, toJson, intToJson_of_fits ⟨hlow, hhigh⟩]
  | @arr items _ ih =>
    rw [ofJson, toJson, ofJsonItems_eq, toJsonItems_eq, List.map_map]
    exact congrArg Json.arr ((List.map_congr_left ih).trans (List.map_id items))
  | @obj fields _ ih =>
    rw [ofJson, toJson, ofJsonFields_eq, toJsonFields_eq, List.map_map]
    have hfields : ∀ f ∈ fields, (f.1, (ofJson f.2).toJson) = f :=
      fun f hf => Prod.ext rfl (ih f hf)
    exact congrArg Json.obj ((List.map_congr_left hfields).trans (List.map_id fields))

/-- Whatever is written is exact. -/
theorem exact_toJson (v : Value) : v.toJson.Exact := by
  induction v using Value.induction with
  | null => exact .null
  | bool b => exact .bool b
  | int n =>
    rw [toJson]
    by_cases h : -2 ^ 63 ≤ n ∧ n ≤ 2 ^ 64 - 1
    · rw [intToJson_of_fits h]
      exact .int h.1 h.2
    · rw [intToJson_of_not_fits h]
      exact .str _
  | str s => exact .str s
  | bytes bs => exact .str _
  | array items ih =>
    rw [toJson, toJsonItems_eq]
    apply Json.Exact.arr
    intro j hj
    obtain ⟨v, hv, rfl⟩ := List.mem_map.1 hj
    exact ih v hv
  | object fields ih =>
    rw [toJson, toJsonFields_eq]
    apply Json.Exact.obj
    intro g hg
    obtain ⟨f, hf, rfl⟩ := List.mem_map.1 hg
    exact ih f hf
  | lazy v ih => exact ih

/-! ## Across the bridge and back -/

/-- A value that JSON expresses comes back as it was, and of any other value
    the JSON comes back.  An integer in a value is the same integer in the
    JSON if it fits one of the two 64-bit ranges, and else its numeral. -/
theorem json_bridge (v : Value) :
    (Expressible v → ofJson v.toJson = v) ∧
      (ofJson v.toJson).toJson = v.toJson ∧
      ∀ path n, v.at? path = some (.int n) →
        if -2 ^ 63 ≤ n ∧ n ≤ 2 ^ 64 - 1 then v.toJson.at? path = some (.int n)
        else v.toJson.at? path = some (.str (Decimal.render n)) ∧
          Decimal.Numeral (Decimal.render n).toList n := by
  refine ⟨Expressible.ofJson_toJson, toJson_ofJson (exact_toJson v), fun path n hn => ?_⟩
  have hplace : v.toJson.at? path = some (intToJson n) := by
    rw [at?_toJson, hn]
    rfl
  rw [hplace]
  by_cases h : -2 ^ 63 ≤ n ∧ n ≤ 2 ^ 64 - 1
  · rw [if_pos h, intToJson_of_fits h]
  · rw [if_neg h, intToJson_of_not_fits h]
    exact ⟨rfl, Decimal.numeral_render n⟩

/-- The least and the greatest integer that JSON has a place for, and the text
    of the next one below. -/
def boundaryIntegers : Value :=
  .object [
    ("z", .int (-2 ^ 63)),
    ("a", .array [.int (2 ^ 64 - 1), .str "-9223372036854775809", .null]),
    ("m", .object [])]

/-- The next integers on either side, one of them behind a lazy value. -/
def wideIntegers : Value :=
  .object [
    ("z", .lazy (.int (-2 ^ 63 - 1))),
    ("a", .array [.int (2 ^ 64), .bytes [0xAB, 0x01]])]

theorem expressible_boundaryIntegers : Expressible boundaryIntegers := by
  have hitems : Expressible
      (.array [.int (2 ^ 64 - 1), .str "-9223372036854775809", .null]) := by
    apply Expressible.array
    simp only [List.forall_mem_cons]
    exact ⟨.int (by decide) (by decide), .str _, .null, by simp⟩
  apply Expressible.object
  simp only [List.forall_mem_cons]
  exact ⟨.int (by decide) (by decide), hitems, .object (by simp), by simp⟩

theorem json_bridge_sixtyFourBits :
    Expressible boundaryIntegers ∧
      ofJson boundaryIntegers.toJson = boundaryIntegers ∧
      (ofJson wideIntegers.toJson).toJson = wideIntegers.toJson ∧
      boundaryIntegers.toJson.at? [.field "a", .item 0] = some (.int 18446744073709551615) ∧
      wideIntegers.toJson.at? [.field "z"] = some (.str "-9223372036854775809") ∧
      wideIntegers.toJson.at? [.field "a", .item 0] = some (.str "18446744073709551616") := by
  have hboundary := json_bridge boundaryIntegers
  have hwide := json_bridge wideIntegers
  have hgreatest := hboundary.2.2 [.field "a", .item 0] (2 ^ 64 - 1) rfl
  have hbelow := hwide.2.2 [.field "z"] (-2 ^ 63 - 1) rfl
  have habove := hwide.2.2 [.field "a", .item 0] (2 ^ 64) rfl
  rw [if_pos (by decide)] at hgreatest
  rw [if_neg (by decide)] at hbelow habove
  exact ⟨expressible_boundaryIntegers, hboundary.1 expressible_boundaryIntegers, hwide.2.1,
    hgreatest, hbelow.1, habove.1⟩

end Value

end ChainCodec
