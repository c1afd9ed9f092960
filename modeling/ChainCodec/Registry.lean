import ChainCodec.Codec
import ChainCodec.Error

/-! # Operation registries

    A registry starts empty, gets its table of operations once, and may be
    dropped when nothing owns it any more.  An operation codec looks the
    table up each time it is used. -/

namespace ChainCodec

inductive Registry where
  | empty
  | installed (table : CaseTable)
  | dropped

namespace Registry

/-- Installs a table, once and for all. -/
def install (table : CaseTable) : Registry → Except Error Registry
  | .empty => .ok (.installed (Codec.caseTable table))
  | _ => .error (.ofRegistry .alreadyInstalled)

def table : Registry → Except Error CaseTable
  | .installed table => .ok table
  | .empty => .error (.ofRegistry .notInstalled)
  | .dropped => .error (.ofRegistry .dropped)

def isInstalled : Registry → Bool
  | .installed _ => true
  | _ => false

end Registry

/-- What stands behind each registry id. -/
abbrev Registries : Type := RegistryId → Registry

/-- How the error context of an operation starts. -/
def operationLabel : String := "operation with id"

namespace Registries

/-- The tagged union that an operation codec stands for. -/
def unionOf (env : Registries) (id : RegistryId) : Except Error Codec := do
  let table ← (env id).table
  pure (.variant operationLabel table)

theorem unionOf_eq_ok {env : Registries} {id : RegistryId} {c : Codec} :
    env.unionOf id = .ok c ↔
      ∃ table, (env id).table = .ok table ∧ c = .variant operationLabel table := by
  simp only [unionOf]
  cases (env id).table with
  | error e =>
    constructor
    · intro h
      cases h
    · rintro ⟨_, h, _⟩
      cases h
  | ok table =>
    constructor
    · intro h
      cases h
      exact ⟨table, rfl, rfl⟩
    · rintro ⟨_, h, rfl⟩
      cases h
      rfl

def set (id : RegistryId) (r : Registry) (env : Registries) : Registries :=
  fun other => if other = id then r else env other

@[simp] theorem set_self (id : RegistryId) (r : Registry) (env : Registries) :
    env.set id r id = r := by
  simp [set]

@[simp] theorem set_ne {id other : RegistryId} (r : Registry) (env : Registries)
    (h : other ≠ id) : env.set id r other = env other := by
  simp [set, h]

end Registries

/-! ## Ownership -/

namespace Codec

mutual

/-- Whether a codec keeps a registry alive.  Tables behind other registries do
    not count: what they hold is not part of the codec. -/
def owns (id : RegistryId) : Codec → Bool
  | .operation link => link.owned && link.registry = id
  | .vector c | .set c | .optional c => owns id c
  | .map c d | .pair c d => owns id c || owns id d
  | .variant _ cases => ownsCases id cases
  | .struct fields _ => ownsFields id fields
  | _ => false

def ownsCases (id : RegistryId) : List (UInt32 × Codec) → Bool
  | [] => false
  | (_, c) :: rest => owns id c || ownsCases id rest

def ownsFields (id : RegistryId) : List (String × Codec) → Bool
  | [] => false
  | (_, c) :: rest => owns id c || ownsFields id rest

end

end Codec

/-- The registries after every owner of `id` is gone except the codecs that
    are kept. -/
def Registries.release (id : RegistryId) (kept : List Codec) (env : Registries) : Registries :=
  if kept.any (Codec.owns id) then env else env.set id .dropped

end ChainCodec
