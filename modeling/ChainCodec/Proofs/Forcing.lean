import ChainCodec.Codec.Check
import ChainCodec.Proofs.Records

/-! # Literal values

    Forcing a value replaces every lazy part by what it stands for, and what
    is left is literal: nothing in it is lazy.

    A check of a scalar cannot tell a forced value from the one that was
    forced, and a check of a composite gives forced parts for the parts. -/

namespace ChainCodec

namespace Value

/-! ## Literal values -/

/-- No part of the value is lazy. -/
inductive Literal : Value → Prop
  | null : Literal .null
  | bool (b : Bool) : Literal (.bool b)
  | int (n : Int) : Literal (.int n)
  | str (s : String) : Literal (.str s)
  | bytes (bs : Bytes) : Literal (.bytes bs)
  | array {items : List Value} (h : ∀ v ∈ items, Literal v) : Literal (.array items)
  | object {fields : Record Value} (h : ∀ f ∈ fields, Literal f.2) : Literal (.object fields)

theorem literal_pair {a b : Value} (ha : Literal a) (hb : Literal b) : Literal (.array [a, b]) := by
  apply Literal.array
  intro v hv
  simp only [List.mem_cons, List.not_mem_nil, or_false] at hv
  rcases hv with rfl | rfl
  · exact ha
  · exact hb

theorem Literal.of_mem {v : Value} {items : List Value} (h : Literal (.array items))
    (hv : v ∈ items) : Literal v := by
  cases h with
  | array h => exact h v hv

theorem Literal.resolve_eq {v : Value} (h : Literal v) : v.resolve = v := by
  cases h <;> rfl

theorem forceItems_eq_map (items : List Value) : forceItems items = items.map force := by
  induction items with
  | nil => rfl
  | cons v vs ih => rw [forceItems, ih, List.map_cons]

theorem forceFields_eq_mapValues (fields : Record Value) :
    forceFields fields = Record.mapValues force fields := by
  unfold Record.mapValues
  induction fields with
  | nil => rfl
  | cons f fields ih => rw [forceFields, ih, List.map_cons]

theorem force_array (items : List Value) : force (.array items) = .array (items.map force) := by
  rw [force, forceItems_eq_map]

theorem force_object (fields : Record Value) :
    force (.object fields) = .object (Record.mapValues force fields) := by
  rw [force, forceFields_eq_mapValues]

theorem literal_force (v : Value) : Literal v.force := by
  induction v using Value.induction with
  | null => exact .null
  | bool b => exact .bool b
  | int n => exact .int n
  | str s => exact .str s
  | bytes bs => exact .bytes bs
  | array items ih =>
    rw [force_array]
    apply Literal.array
    intro w hw
    obtain ⟨v, hv, rfl⟩ := List.mem_map.1 hw
    exact ih v hv
  | object fields ih =>
    rw [force_object]
    apply Literal.object
    intro g hg
    obtain ⟨f, hf, rfl⟩ := List.mem_map.1 hg
    exact ih f hf
  | lazy v ih => exact ih

theorem Literal.force_eq {v : Value} (h : Literal v) : v.force = v := by
  induction h with
  | null | bool _ | int _ | str _ | bytes _ => rfl
  | @array items _ ih =>
    rw [force_array, List.map_congr_left ih, List.map_id']
  | @object fields _ ih =>
    have hfields : Record.mapValues force fields = fields := by
      unfold Record.mapValues
      conv_rhs => rw [← List.map_id fields]
      exact List.map_congr_left fun f hf => Prod.ext rfl (ih f hf)
    rw [force_object, hfields]

/-- Literal values are the ones that forcing leaves alone. -/
theorem literal_iff {v : Value} : Literal v ↔ v.force = v := by
  constructor
  · exact Literal.force_eq
  · intro h
    rw [← h]
    exact literal_force v

/-! ## Forced values -/

theorem force_resolve (v : Value) : v.resolve.force = v.force := by
  fun_induction resolve v with
  | case1 v ih => rw [ih, force]
  | case2 v _ => rfl

theorem resolve_force (v : Value) : v.force.resolve = v.force := (literal_force v).resolve_eq

/-- A function of values that looks into no arrays and no objects does not
    tell a forced value from what the value stands for. -/
theorem eq_on_force {α : Type} (f : Value → α)
    (harray : ∀ items items', f (.array items) = f (.array items'))
    (hobject : ∀ fields fields', f (.object fields) = f (.object fields')) (v : Value) :
    f v.force = f v.resolve := by
  rw [← force_resolve]
  cases h : v.resolve with
  | lazy w => exact absurd h (resolve_ne_lazy v w)
  | array items => exact harray _ _
  | object fields => exact hobject _ _
  | null | bool _ | int _ | str _ | bytes _ => rfl

theorem isNull_force (v : Value) : v.force.isNull = v.resolve.isNull :=
  eq_on_force isNull (fun _ _ => rfl) (fun _ _ => rfl) v

theorem field_force (fields : Record Value) (name : String) :
    field (Record.mapValues force fields) name = (field fields name).force := by
  unfold field
  rw [Record.get?_mapValues]
  cases Record.get? name fields <;> rfl

theorem asPair?_force (v : Value) :
    v.force.asPair? = v.resolve.asPair?.map (Prod.map force force) := by
  rw [← force_resolve]
  cases h : v.resolve with
  | lazy w => exact absurd h (resolve_ne_lazy v w)
  | array items =>
    -- Both have as many items.
    match items with
    | [] | [_] | [_, _] | _ :: _ :: _ :: _ => rfl
  | object _ | null | bool _ | int _ | str _ | bytes _ => rfl

end Value

/-! ## Checks of forced values -/

namespace Check

open Value

theorem array_force (what : String) (v : Value) :
    array what v.force = List.map force <$> array what v.resolve := by
  rw [← force_resolve]
  cases h : v.resolve with
  | lazy w => exact absurd h (resolve_ne_lazy v w)
  | array items => exact congrArg Except.ok (forceItems_eq_map items)
  | object _ | null | bool _ | int _ | str _ | bytes _ => rfl

theorem elements_force (v : Value) :
    elements v.force = List.map force <$> elements v.resolve := by
  unfold elements
  rw [isNull_force, array_force]
  split <;> rfl

theorem object_force (v : Value) :
    object v.force = Record.mapValues force <$> object v.resolve := by
  rw [← force_resolve]
  cases h : v.resolve with
  | lazy w => exact absurd h (resolve_ne_lazy v w)
  | object fields => exact congrArg Except.ok (forceFields_eq_mapValues fields)
  | array _ | null | bool _ | int _ | str _ | bytes _ => rfl

theorem pair_force (v : Value) : pair v.force = Prod.map force force <$> pair v.resolve := by
  unfold pair
  rw [asPair?_force]
  cases v.resolve.asPair? with
  | some p => rfl
  | none => exact eq_on_force (mismatch _) (fun _ _ => rfl) (fun _ _ => rfl) v

theorem tagged_force (v : Value) : tagged v.force = Prod.map force force <$> tagged v.resolve := by
  unfold tagged
  rw [asPair?_force]
  cases v.resolve.asPair? with
  | some p => rfl
  | none => exact eq_on_force (mismatch _) (fun _ _ => rfl) (fun _ _ => rfl) v

theorem tag_force (v : Value) : tag v.force = tag v.resolve :=
  eq_on_force tag (fun _ _ => rfl) (fun _ _ => rfl) v

/-- Objects with the same keys pass and fail alike. -/
theorem keys_mapValues (ignoreUnknown : Bool) (names : List String) (g : Value → Value)
    (fields : Record Value) :
    keys ignoreUnknown names (Record.mapValues g fields) = keys ignoreUnknown names fields := by
  unfold keys knownKeys
  rw [Record.keys_mapValues]

end Check

/-! ## Traversals -/

section Traversals

variable {α α' β β' : Type}

/-- What is done to the items beforehand may be done by each step. -/
theorem traverseFrom_map_items {m : Type → Type} [Monad m] (f : Nat → α' → m β) (g : α → α')
    (start : Nat) (as : List α) :
    traverseFrom f start (as.map g) = traverseFrom (fun i a => f i (g a)) start as := by
  induction as generalizing start with
  | nil => rfl
  | cons a as ih =>
    simp only [List.map_cons, traverseFrom]
    rw [ih]

/-- What each step does to its result may be done in the end. -/
theorem traverseFrom_map_results {ε : Type} (f : Nat → α → Except ε β) (k : β → β') (start : Nat)
    (as : List α) :
    traverseFrom (fun i a => k <$> f i a) start as = List.map k <$> traverseFrom f start as := by
  induction as generalizing start with
  | nil => rfl
  | cons a as ih =>
    simp only [traverseFrom]
    rw [ih]
    cases f start a with
    | error e => rfl
    | ok b => cases traverseFrom f (start + 1) as <;> rfl

end Traversals

theorem Check.entries_force (textKeys : Bool) (v : Value) :
    Check.entries textKeys v.force =
      List.map (Prod.map Value.force Value.force) <$> Check.entries textKeys v.resolve := by
  rw [← Value.force_resolve]
  cases h : v.resolve with
  | lazy w => exact absurd h (Value.resolve_ne_lazy v w)
  | object fields =>
    rw [Value.force_object]
    cases textKeys with
    | false => rfl
    | true =>
      -- The keys are texts, and the values are forced.
      simp only [Check.entries, Record.mapValues, List.map_map]
      exact congrArg Except.ok (by rw [List.map_map]; rfl)
  | array items =>
    rw [Value.force_array]
    simp only [Check.entries]
    rw [traverseFrom_map_items, ← traverseFrom_map_results]
    apply traverseFrom_congr
    intro i item _
    rw [Value.resolve_force, Value.asPair?_force]
    cases item.resolve.asPair? <;> rfl
  | null | bool _ | int _ | str _ | bytes _ => rfl

end ChainCodec
