import ChainCodec.Proofs.Reach
import ChainCodec.Protocol

/-! # The codecs of a protocol are well formed

    What is assumed about codecs can be checked: a test that every codec
    inside a codec passes, and every codec inside the tables that operation
    codecs refer to, holds of all codecs that are reached.

    All codecs of a protocol pass: their structs name no field twice, their
    ids have one type, and their operations keep a fee that is filled in.  Fees
    are filled in for outermost operations only. -/

namespace ChainCodec

namespace Codec

/-! ## Tests -/

mutual

/-- Whether all codecs that a codec is built from pass a test. -/
def all (test : Codec → Bool) : Codec → Bool
  | .vector c => test (.vector c) && all test c
  | .set c => test (.set c) && all test c
  | .optional c => test (.optional c) && all test c
  | .map c d => test (.map c d) && (all test c && all test d)
  | .pair c d => test (.pair c d) && (all test c && all test d)
  | .variant label cases => test (.variant label cases) && allCases test cases
  | .struct fields ignoreUnknown =>
      test (.struct fields ignoreUnknown) && allFields test fields
  | c => test c

def allCases (test : Codec → Bool) : List (UInt32 × Codec) → Bool
  | [] => true
  | (_, c) :: rest => all test c && allCases test rest

def allFields (test : Codec → Bool) : List (String × Codec) → Bool
  | [] => true
  | (_, c) :: rest => all test c && allFields test rest

end

section All

variable {env : Registries} {test guard : Codec → Bool} {c d : Codec}

theorem all_of_mem_cases {cases : CaseTable} (h : allCases test cases = true)
    {case : UInt32 × Codec} (hcase : case ∈ cases) : all test case.2 = true := by
  induction cases with
  | nil => cases hcase
  | cons head rest ih =>
    simp only [allCases, Bool.and_eq_true] at h
    rcases List.mem_cons.1 hcase with rfl | hcase
    · exact h.1
    · exact ih h.2 hcase

theorem all_of_mem_fields {fields : List (String × Codec)} (h : allFields test fields = true)
    {field : String × Codec} (hfield : field ∈ fields) : all test field.2 = true := by
  induction fields with
  | nil => cases hfield
  | cons head rest ih =>
    simp only [allFields, Bool.and_eq_true] at h
    rcases List.mem_cons.1 hfield with rfl | hfield
    · exact h.1
    · exact ih h.2 hfield

theorem allCases_of_forall {cases : CaseTable} (h : ∀ case ∈ cases, all test case.2 = true) :
    allCases test cases = true := by
  induction cases with
  | nil => rfl
  | cons head rest ih =>
    simp only [allCases, Bool.and_eq_true]
    exact ⟨h head (by simp), ih fun case hcase => h case (by simp [hcase])⟩

theorem test_of_all (h : all test c = true) : test c = true := by
  cases c <;> simp only [all, Bool.and_eq_true] at h <;> first | exact h | exact h.1

theorem all_of_inside
    (htables : ∀ link table, c = .operation link → (env link.registry).table = .ok table →
      allCases test table = true)
    (hc : all test c = true) (h : Inside env c d) : all test d = true := by
  cases h with
  | vector | set | optional =>
    simp only [all, Bool.and_eq_true] at hc
    exact hc.2
  | key | first =>
    simp only [all, Bool.and_eq_true] at hc
    exact hc.2.1
  | value | second =>
    simp only [all, Bool.and_eq_true] at hc
    exact hc.2.2
  | case hcase =>
    simp only [all, Bool.and_eq_true] at hc
    exact all_of_mem_cases hc.2 hcase
  | field hfield =>
    simp only [all, Bool.and_eq_true] at hc
    exact all_of_mem_fields hc.2 hfield
  | operation htable hcase => exact all_of_mem_cases (htables _ _ rfl htable) hcase

/-- All codecs that are reached pass the test, if those tables do which stand
    behind the operation codecs that a second test lets through. -/
theorem Reaches.passes_guarded (h : Reaches env c d)
    (htables : ∀ link table, guard (.operation link) = true →
      (env link.registry).table = .ok table →
        allCases guard table = true ∧ allCases test table = true)
    (hguard : all guard c = true) (hc : all test c = true) : test d = true := by
  -- What is carried along the way is that all codecs further inside pass both.
  have hall : all guard d = true ∧ all test d = true := by
    induction h with
    | refl => exact ⟨hguard, hc⟩
    | @tail e _ _ hinside ih =>
      have htables' (link : OperationLink) (table : CaseTable) (he : e = .operation link)
          (htable : (env link.registry).table = .ok table) :
          allCases guard table = true ∧ allCases test table = true :=
        htables link table (test_of_all (he ▸ ih.1)) htable
      exact ⟨all_of_inside (fun link table he ht => (htables' link table he ht).1) ih.1 hinside,
        all_of_inside (fun link table he ht => (htables' link table he ht).2) ih.2 hinside⟩
  exact test_of_all hall.2

/-- All codecs that are reached pass the test, if the tables of the operation
    codecs that pass it do. -/
theorem Reaches.passes_of_links (h : Reaches env c d)
    (htables : ∀ link table, test (.operation link) = true →
      (env link.registry).table = .ok table → allCases test table = true)
    (hc : all test c = true) : test d = true :=
  h.passes_guarded (fun link table hlink htable =>
    ⟨htables link table hlink htable, htables link table hlink htable⟩) hc hc

/-- All codecs that are reached pass the test, if all tables do. -/
theorem Reaches.passes (h : Reaches env c d)
    (htables : ∀ id table, (env id).table = .ok table → allCases test table = true)
    (hc : all test c = true) : test d = true :=
  h.passes_of_links (fun link table _ => htables link.registry table) hc

end All

/-- A struct names no field twice, and an id has one type. -/
def wellFormed : Codec → Bool
  | .struct fields _ => decide (fields.map Prod.fst).Nodup
  | .objectId _ _ more => more.isEmpty
  | _ => true

theorem nodup_of_wellFormed {c : Codec} (h : c.wellFormed = true) : c.fieldNames.Nodup := by
  cases c with
  | struct fields _ => exact of_decide_eq_true h
  | _ => exact List.nodup_nil

theorem tellsType_of_wellFormed {c : Codec} (h : c.wellFormed = true) : c.TellsType := by
  cases c with
  | objectId space type more => exact List.isEmpty_iff.1 h
  | _ => trivial

end Codec

/-! ## Protocols -/

open Codec

theorem Schema.wellFormed_operationTable (id : RegistryId) :
    allCases wellFormed (Schema.operationTable id) = true := rfl

theorem Registries.wellFormed_live (id : RegistryId) (table : CaseTable)
    (h : (live id).table = .ok table) : allCases wellFormed table = true := by
  obtain rfl := Except.ok.inj h
  exact Schema.wellFormed_operationTable id

/-- Every operation names a fee, which is an amount of an asset. -/
theorem Schema.keepsFee_of_mem_operationTable {id : RegistryId} {case : UInt32 × Codec}
    (h : case ∈ Schema.operationTable id) : case.2.keepsFee = true := by
  -- The fee is the same for all operations, so the table is not looked through.
  obtain ⟨op, _, rfl⟩ := List.mem_map.1 h
  rfl

theorem Registries.feesKept_live (c : Codec) : FeesKept live c := by
  intro link table case _ _ htable hcase
  obtain rfl := Except.ok.inj htable
  exact Schema.keepsFee_of_mem_operationTable hcase

/-! ### Required fees -/

namespace Codec

/-- Whether an operation codec leaves fees to its input. -/
def requiresFee : Codec → Bool
  | .operation link => !link.zeroFee
  | _ => true

theorem allCases_requiresFee_operationTable (id : RegistryId) :
    allCases requiresFee (Schema.operationTable id) = true := rfl

/-- No operation that is nested in those of a protocol has its fee filled in. -/
theorem zeroFee_eq_false_of_reaches {c : Codec} (hc : all requiresFee c = true)
    {link : OperationLink} (h : Reaches .live c (.operation link)) : link.zeroFee = false := by
  have hlink : requiresFee (.operation link) = true := by
    refine h.passes (fun id table htable => ?_) hc
    obtain rfl := Except.ok.inj htable
    exact allCases_requiresFee_operationTable id
  simpa [requiresFee] using hlink

end Codec

/-! ### Messages and objects -/

namespace Protocol

variable (p : Protocol)

theorem wellFormed_codecs : allFields wellFormed p.codecs = true := rfl

theorem distinctNames_of_mem_codecs {entry : String × Codec} (h : entry ∈ p.codecs) :
    DistinctNames Registries.live entry.2 := fun _ hd =>
  nodup_of_wellFormed
    (hd.passes Registries.wellFormed_live (all_of_mem_fields p.wellFormed_codecs h))

theorem singleTyped_of_mem_codecs {entry : String × Codec} (h : entry ∈ p.codecs) :
    SingleTyped Registries.live entry.2 := fun _ hd =>
  tellsType_of_wellFormed
    (hd.passes Registries.wellFormed_live (all_of_mem_fields p.wellFormed_codecs h))

end Protocol

end ChainCodec
