import ChainCodec.Codec.Normalize
import Mathlib.Logic.Relation

/-! # Codecs inside codecs

    A codec reaches the codecs that it is built from and, through an
    operation codec, those of the table behind its registry.  What is assumed
    about a codec is assumed about all codecs that it reaches: the names of a
    struct are distinct, an id has one type, and a fee that is filled in
    stays. -/

namespace ChainCodec.Codec

/-! ## Reaching -/

/-- One step from a codec to one inside it.  The codecs inside an operation
    codec are those of its table. -/
inductive Inside (env : Registries) : Codec → Codec → Prop
  | vector {c : Codec} : Inside env (.vector c) c
  | set {c : Codec} : Inside env (.set c) c
  | key {c d : Codec} : Inside env (.map c d) c
  | value {c d : Codec} : Inside env (.map c d) d
  | optional {c : Codec} : Inside env (.optional c) c
  | first {c d : Codec} : Inside env (.pair c d) c
  | second {c d : Codec} : Inside env (.pair c d) d
  | case {label : String} {cases : CaseTable} {case : UInt32 × Codec} (h : case ∈ cases) :
      Inside env (.variant label cases) case.2
  | field {fields : List (String × Codec)} {ignoreUnknown : Bool} {field : String × Codec}
      (h : field ∈ fields) : Inside env (.struct fields ignoreUnknown) field.2
  | operation {link : OperationLink} {table : CaseTable} {case : UInt32 × Codec}
      (htable : (env link.registry).table = .ok table) (h : case ∈ table) :
      Inside env (.operation link) case.2

/-- What is inside a codec is smaller, unless it is in a table. -/
theorem Inside.sizeOf_lt {env : Registries} {c d : Codec} (h : Inside env c d)
    (hc : ∀ link, c ≠ .operation link) : sizeOf d < sizeOf c := by
  cases h with
  | vector => simp only [vector.sizeOf_spec]; omega
  | set => simp only [set.sizeOf_spec]; omega
  | key => simp only [map.sizeOf_spec]; omega
  | value => simp only [map.sizeOf_spec]; omega
  | optional => simp only [optional.sizeOf_spec]; omega
  | first => simp only [pair.sizeOf_spec]; omega
  | second => simp only [pair.sizeOf_spec]; omega
  | @case label cases case h =>
    have hmem := List.sizeOf_lt_of_mem h
    obtain ⟨tag, c⟩ := case
    simp only [Prod.mk.sizeOf_spec] at hmem
    simp only [variant.sizeOf_spec]
    omega
  | @field fields ignoreUnknown field h =>
    have hmem := List.sizeOf_lt_of_mem h
    obtain ⟨name, c⟩ := field
    simp only [Prod.mk.sizeOf_spec] at hmem
    simp only [struct.sizeOf_spec]
    omega
  | operation _ _ => exact absurd rfl (hc _)

/-- Without tables nothing is inside a codec but what it is built from. -/
abbrev noTables : Registries := fun _ => .empty

/-- Tables matter for operation codecs only. -/
theorem Inside.withoutTables {env : Registries} {c d : Codec} (h : Inside env c d)
    (hc : ∀ link, c ≠ .operation link) : Inside noTables c d := by
  cases h with
  | vector => exact .vector
  | set => exact .set
  | key => exact .key
  | value => exact .value
  | optional => exact .optional
  | first => exact .first
  | second => exact .second
  | case h => exact .case h
  | field h => exact .field h
  | operation _ _ => exact absurd rfl (hc _)

/-- What holds of a codec wherever it holds of the codecs that it is built from
    holds of all codecs. -/
theorem induction {P : Codec → Prop} (h : ∀ c, (∀ d, Inside noTables c d → P d) → P c)
    (c : Codec) : P c := by
  apply h
  intro d hd
  exact Codec.induction h d
termination_by sizeOf c
decreasing_by
  refine hd.sizeOf_lt fun link hlink => ?_
  subst hlink
  cases hd with
  | operation htable _ => cases htable

/-- Any number of steps. -/
def Reaches (env : Registries) : Codec → Codec → Prop := Relation.ReflTransGen (Inside env)

namespace Reaches

variable {env : Registries} {c d e : Codec}

theorem refl (c : Codec) : Reaches env c c := Relation.ReflTransGen.refl

theorem head (h : Inside env c d) (h' : Reaches env d e) : Reaches env c e :=
  Relation.ReflTransGen.head h h'

/-- The union that stands behind an operation codec reaches what the
    operation codec reaches. -/
theorem of_union {link : OperationLink} {table : CaseTable} {label : String}
    (htable : (env link.registry).table = .ok table) (h : Reaches env (.variant label table) d)
    (hne : d ≠ .variant label table) : Reaches env (.operation link) d := by
  -- Both have the same cases to go on to.
  rcases Relation.ReflTransGen.cases_head h with rfl | ⟨e, he, hd⟩
  · exact absurd rfl hne
  · cases he with
    | case hcase => exact head (.operation htable hcase) hd

end Reaches

/-! ## What is assumed about codecs -/

/-- No struct names a field twice. -/
def DistinctNames (env : Registries) (c : Codec) : Prop :=
  ∀ d, Reaches env c d → d.fieldNames.Nodup

/-- Whether the wire form tells the type of an id: there is only one. -/
def TellsType : Codec → Prop
  | .objectId _ _ more => more = []
  | _ => True

/-- Every id codec has one type. -/
def SingleTyped (env : Registries) (c : Codec) : Prop := ∀ d, Reaches env c d → d.TellsType

/-- Whether null is a canonical value. -/
def nullable : Codec → Bool
  | .void | .optional _ => true
  | _ => false

/-- Whether a fee that was filled in is still there in the canonical value:
    the struct names one that cannot be null, or drops what it does not
    name. -/
def keepsFee : Codec → Bool
  | .struct fields ignoreUnknown =>
      match fields.lookup Fee.fieldName with
      | some c => !c.nullable
      | none => ignoreUnknown
  | .optional c => c.keepsFee
  | .void => false
  | _ => true

/-- Operation codecs that fill in fees lead to operations that keep them. -/
def FeesKept (env : Registries) (c : Codec) : Prop :=
  ∀ link table case, Reaches env c (.operation link) → link.zeroFee = true →
    (env link.registry).table = .ok table → case ∈ table → case.2.keepsFee = true

section Inside

variable {env : Registries} {c d : Codec}

theorem DistinctNames.inside (h : DistinctNames env c) (hd : Inside env c d) :
    DistinctNames env d := fun e he => h e (.head hd he)

theorem DistinctNames.pair_of_map (h : DistinctNames env (.map c d)) :
    DistinctNames env (.pair c d) := by
  intro e he
  rcases Relation.ReflTransGen.cases_head he with rfl | ⟨f, hf, he⟩
  · -- The pair itself is not a struct.
    exact List.nodup_nil
  · cases hf with
    | first => exact h e (.head .key he)
    | second => exact h e (.head .value he)

theorem DistinctNames.union {link : OperationLink} {table : CaseTable} {label : String}
    (h : DistinctNames env (.operation link)) (htable : (env link.registry).table = .ok table) :
    DistinctNames env (.variant label table) := by
  intro d hd
  by_cases hne : d = .variant label table
  · -- The union is not a struct, and has no fields.
    rw [hne]
    exact List.nodup_nil
  · exact h d (hd.of_union htable hne)

end Inside

end ChainCodec.Codec
