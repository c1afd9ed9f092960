import ChainCodec.Proofs.Encoding
import ChainCodec.Proofs.Visits

/-! # Short values have bytes

    The canonical value of a codec has bytes unless something in it is longer
    than 32 bits can count, and it is never longer than what it was made of.
    So if nothing in a value is too long, its canonical value has bytes, and
    so have the canonical values of the parts that sets and maps are sorted
    by. -/

namespace ChainCodec

/-! ## Texts of bytes -/

/-- Bytes that are text are the bytes of the text. -/
theorem Utf8.encode_of_decode {bs : Bytes} {s : String} (h : decode bs = .ok s) :
    encode s = bs := by
  unfold decode at h
  split at h
  · rename_i s' hs
    obtain rfl := Except.ok.inj h
    simp only [String.fromUTF8?] at hs
    split at hs
    · obtain rfl := Option.some.inj hs
      simp [encode, String.fromUTF8]
    · cases hs
  · cases h

/-! ## Short values -/

namespace Value

/-- Nothing in the value is too long to be counted in 32 bits. -/
inductive Short : Value → Prop
  | null : Short .null
  | bool (b : Bool) : Short (.bool b)
  | int (n : Int) : Short (.int n)
  | str {s : String} (h : (Utf8.encode s).length < UInt32.size) : Short (.str s)
  | bytes {bs : Bytes} (h : bs.length < UInt32.size) : Short (.bytes bs)
  | array {items : List Value} (hlength : items.length < UInt32.size)
      (h : ∀ v ∈ items, Short v) : Short (.array items)
  | object {fields : Record Value} (hlength : fields.length < UInt32.size)
      (hnames : ∀ f ∈ fields, Short (.str f.1)) (h : ∀ f ∈ fields, Short f.2) :
      Short (.object fields)
  | lazy {v : Value} (h : Short v) : Short (.lazy v)

theorem Short.resolve {v : Value} (h : Short v) : Short v.resolve := by
  induction h with
  | lazy _ ih => exact ih
  | null => exact .null
  | bool b => exact .bool b
  | int n => exact .int n
  | str h => exact .str h
  | bytes h => exact .bytes h
  | array hlength h => exact .array hlength h
  | object hlength hnames h => exact .object hlength hnames h

@[simp] theorem short_array_iff {items : List Value} :
    Short (.array items) ↔ items.length < UInt32.size ∧ ∀ v ∈ items, Short v := by
  constructor
  · intro h
    cases h with
    | array hlength h => exact ⟨hlength, h⟩
  · exact fun h => .array h.1 h.2

theorem Short.items {items : List Value} (h : Short (.array items)) :
    items.length < UInt32.size ∧ ∀ v ∈ items, Short v := short_array_iff.1 h

theorem Short.pair {v a b : Value} (h : Short v) (hv : v.asPair? = some (a, b)) :
    Short a ∧ Short b := by
  obtain rfl := asPair?_eq_some.1 hv
  exact ⟨h.items.2 a (by simp), h.items.2 b (by simp)⟩

theorem Short.field {record : Record Value} (h : Short (.object record)) (name : String) :
    Short (field record name) := by
  cases h with
  | object _ _ hfields =>
    rw [Value.field]
    cases hget : Record.get? name record with
    | none => exact .null
    | some v => exact hfields _ (Codec.mem_of_lookup hget)

theorem Short.elements {v : Value} {items : List Value} (h : Short v)
    (hitems : Check.elements v = .ok items) :
    items.length < UInt32.size ∧ ∀ item ∈ items, Short item := by
  unfold Check.elements at hitems
  split at hitems
  · cases hitems
    exact ⟨by decide, by simp⟩
  · obtain rfl := Check.array_eq_ok.1 hitems
    exact h.items

theorem Short.entries {v : Value} {textKeys : Bool} {ps : List (Value × Value)} (h : Short v)
    (hps : Check.entries textKeys v = .ok ps) :
    ps.length < UInt32.size ∧ ∀ p ∈ ps, Short p.1 ∧ Short p.2 := by
  cases h with
  | null =>
    cases hps
    exact ⟨by decide, by simp⟩
  | object hlength hnames hfields =>
    cases textKeys with
    | false => cases hps
    | true =>
      cases hps
      refine ⟨by rwa [List.length_map], fun p hp => ?_⟩
      obtain ⟨f, hf, rfl⟩ := List.mem_map.1 hp
      exact ⟨hnames f hf, hfields f hf⟩
  | array hlength hitems =>
    have hpairs := Codec.entries_array_eq_ok.1 hps
    refine ⟨by rwa [← hpairs.length_eq], fun p hp => ?_⟩
    obtain ⟨item, hitem, hp⟩ := forall₂_mem_right hpairs hp
    exact (hitems item hitem).resolve.pair hp
  | bool _ | int _ | str _ | bytes _ | lazy _ => cases hps

end Value

/-! ## Canonical values of short values -/

namespace Codec

variable {env : Registries} {c d : Codec} {u v w raw : Value}

/-- No operation codec inside fills in a fee. -/
def FeesRequired (env : Registries) (c : Codec) : Prop :=
  ∀ link, Reaches env c (.operation link) → link.zeroFee = false

theorem FeesRequired.inside (h : FeesRequired env c) (hd : Inside env c d) :
    FeesRequired env d := fun link hlink => h link (.head hd hlink)

theorem FeesRequired.zeroFee {link : OperationLink} (h : FeesRequired env (.operation link)) :
    link.zeroFee = false := h link (.refl _)

end Codec

end ChainCodec
