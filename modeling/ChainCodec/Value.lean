import ChainCodec.Bytes
import ChainCodec.Record

/-! # Values

    The tree that codecs take in and give back.  A value may be *lazy*: it
    stands for another value, which is looked at when the lazy one is
    resolved.

    Two objects are the same when their fields agree, whatever the order.  A
    lazy value is the same as no other value. -/

namespace ChainCodec

inductive Value where
  | null
  | bool (b : Bool)
  | int (n : Int)
  | str (s : String)
  | bytes (bs : Bytes)
  | array (items : List Value)
  | object (fields : List (String × Value))
  | lazy (value : Value)
  deriving Inhabited

namespace Value

/-- A property holds of all values if it passes from the parts of a value to
    the value. -/
theorem induction {P : Value → Prop} (null : P .null) (bool : ∀ b, P (.bool b))
    (int : ∀ n, P (.int n)) (str : ∀ s, P (.str s)) (bytes : ∀ bs, P (.bytes bs))
    (array : ∀ items, (∀ v ∈ items, P v) → P (.array items))
    (object : ∀ fields : Record Value, (∀ f ∈ fields, P f.2) → P (.object fields))
    (lazy : ∀ v, P v → P (.lazy v)) (v : Value) : P v := by
  -- The lists of items and of fields have motives of their own.
  refine @Value.rec P (fun items => ∀ v ∈ items, P v) (fun fields => ∀ f ∈ fields, P f.2)
    (fun f => P f.2) null bool int str bytes array object lazy ?_ ?_ ?_ ?_ ?_ v
  · simp
  · intro v items hv hitems
    exact List.forall_mem_cons.2 ⟨hv, hitems⟩
  · simp
  · intro f fields hf hfields
    exact List.forall_mem_cons.2 ⟨hf, hfields⟩
  · intro name v hv
    exact hv

/-! ## Shapes -/

/-- The shape of a value, as error messages call it. -/
inductive Kind where
  | null
  | bool
  | integer
  | string
  | bytes
  | array
  | object
  | lazy
  deriving DecidableEq, Repr

def Kind.name : Kind → String
  | .null => "null"
  | .bool => "bool"
  | .integer => "integer"
  | .string => "string"
  | .bytes => "bytes"
  | .array => "array"
  | .object => "object"
  | .lazy => "lazy value"

def kind : Value → Kind
  | .null => .null
  | .bool _ => .bool
  | .int _ => .integer
  | .str _ => .string
  | .bytes _ => .bytes
  | .array _ => .array
  | .object _ => .object
  | .lazy _ => .lazy

def isNull : Value → Bool
  | .null => true
  | _ => false

def asInt? : Value → Option Int
  | .int n => some n
  | _ => none

def asString? : Value → Option String
  | .str s => some s
  | _ => none

def asBytes? : Value → Option Bytes
  | .bytes bs => some bs
  | _ => none

def asArray? : Value → Option (List Value)
  | .array items => some items
  | _ => none

def asObject? : Value → Option (Record Value)
  | .object fields => some fields
  | _ => none

/-- The two items of an array of two. -/
def asPair? : Value → Option (Value × Value)
  | .array [a, b] => some (a, b)
  | _ => none

theorem asPair?_eq_some {v a b : Value} : v.asPair? = some (a, b) ↔ v = .array [a, b] := by
  fun_cases asPair? v <;> simp_all

/-- The field of an object. -/
def get? (name : String) (v : Value) : Option Value :=
  v.asObject?.bind (Record.get? name)

/-- The field of a record, where a missing one is null. -/
def field (fields : Record Value) (name : String) : Value :=
  (Record.get? name fields).getD .null

/-! ## Lazy values -/

/-- The value that a chain of lazy ones ends in. -/
def resolve : Value → Value
  | .lazy v => v.resolve
  | v => v

@[simp] theorem resolve_lazy (v : Value) : resolve (.lazy v) = v.resolve := rfl

theorem resolve_ne_lazy (v w : Value) : v.resolve ≠ .lazy w := by
  fun_induction resolve v with
  | case1 v ih => exact ih
  | case2 v h => exact fun e => h w e

mutual

/-- Every lazy part replaced by what it stands for. -/
def force : Value → Value
  | .lazy v => v.force
  | .array items => .array (forceItems items)
  | .object fields => .object (forceFields fields)
  | v => v

def forceItems : List Value → List Value
  | [] => []
  | v :: vs => v.force :: forceItems vs

def forceFields : List (String × Value) → List (String × Value)
  | [] => []
  | (name, v) :: rest => (name, v.force) :: forceFields rest

end

/-! ## Nesting -/

mutual

/-- The most arrays that lie inside one another on a path into the value. -/
def arrayDepth : Value → Nat
  | .lazy v => v.arrayDepth
  | .array items => arrayDepthItems items + 1
  | .object fields => arrayDepthFields fields
  | _ => 0

def arrayDepthItems : List Value → Nat
  | [] => 0
  | v :: vs => max v.arrayDepth (arrayDepthItems vs)

def arrayDepthFields : List (String × Value) → Nat
  | [] => 0
  | (_, v) :: rest => max v.arrayDepth (arrayDepthFields rest)

end

@[simp] theorem arrayDepth_resolve (v : Value) : v.resolve.arrayDepth = v.arrayDepth := by
  fun_induction resolve v with
  | case1 v ih => simpa [arrayDepth] using ih
  | case2 v => rfl

theorem arrayDepth_le_items {v : Value} {items : List Value} (h : v ∈ items) :
    v.arrayDepth ≤ arrayDepthItems items := by
  induction items with
  | nil => simp at h
  | cons w ws ih =>
    simp only [arrayDepthItems]
    rcases List.mem_cons.1 h with rfl | h
    · omega
    · have := ih h
      omega

theorem arrayDepth_lt_array {v : Value} {items : List Value} (h : v ∈ items) :
    v.arrayDepth < (array items).arrayDepth := by
  have := arrayDepth_le_items h
  simp only [arrayDepth]
  omega

theorem arrayDepth_lt_of_asPair? {v a b : Value} (h : v.asPair? = some (a, b)) :
    a.arrayDepth < v.arrayDepth ∧ b.arrayDepth < v.arrayDepth := by
  obtain rfl := asPair?_eq_some.1 h
  exact ⟨arrayDepth_lt_array (by simp), arrayDepth_lt_array (by simp)⟩

theorem arrayDepth_le_fields {f : String × Value} {fields : List (String × Value)}
    (h : f ∈ fields) : f.2.arrayDepth ≤ arrayDepthFields fields := by
  induction fields with
  | nil => simp at h
  | cons g fields ih =>
    simp only [arrayDepthFields]
    rcases List.mem_cons.1 h with rfl | h
    · omega
    · have := ih h
      omega

theorem arrayDepth_field_le (fields : Record Value) (name : String) :
    (field fields name).arrayDepth ≤ arrayDepthFields fields := by
  induction fields with
  | nil => simp [field, arrayDepth]
  | cons f fields ih =>
    obtain ⟨n, v⟩ := f
    unfold field at ih ⊢
    rw [Record.get?_cons, arrayDepthFields]
    split
    · rw [Option.getD_some]
      omega
    · omega

theorem arrayDepthFields_insert_le (name : String) (v : Value) (fields : Record Value) :
    arrayDepthFields (Record.insert name v fields) ≤
      max v.arrayDepth (arrayDepthFields fields) := by
  induction fields with
  | nil => simp [Record.insert, arrayDepthFields]
  | cons f fields ih =>
    by_cases h : f.1 = name
    · simp only [Record.insert, h, if_true, arrayDepthFields]
      omega
    · simp only [Record.insert, h, if_false, arrayDepthFields]
      omega

/-! ## Sameness -/

mutual

def same : Value → Value → Bool
  | .null, .null => true
  | .bool a, .bool b => a == b
  | .int a, .int b => a == b
  | .str a, .str b => a == b
  | .bytes a, .bytes b => a == b
  | .array a, .array b => sameItems a b
  | .object a, .object b => a.length == b.length && sameFields a b
  | _, _ => false

def sameItems : List Value → List Value → Bool
  | [], [] => true
  | a :: as, b :: bs => same a b && sameItems as bs
  | _, _ => false

/-- Whether every field of the first record is in the second one. -/
def sameFields : List (String × Value) → List (String × Value) → Bool
  | [], _ => true
  | (name, a) :: rest, other =>
      (match Record.get? name other with
        | some b => same a b
        | none => false) && sameFields rest other

end

instance : BEq Value := ⟨same⟩

/-! ## Conversions -/

def ofOption {α : Type} (toValue : α → Value) : Option α → Value
  | some a => toValue a
  | none => .null

def ofPair {α β : Type} (first : α → Value) (second : β → Value) (p : α × β) : Value :=
  .array [first p.1, second p.2]

end Value

end ChainCodec
