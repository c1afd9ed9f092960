import ChainCodec.Proofs.Grammar
import Mathlib

/-! # The values inside a value

    `children` gives the values that a codec finds one step inside a value, in
    their order and each with the codec it is read by.  What is counted over all
    levels of a value is defined by recursion on them: the unions on the deepest
    path (`unionDepth`) and the elements of all collections (`elementCount`).

    The children of a value that was read stand side by side in the bytes that it
    was read from: `Spells.divides`. -/

namespace ChainCodec

namespace Record

variable {α β : Type}

/-- The fields that are left when all have been written into a record: of
    several with one name, the last. -/
def kept : List (String × α) → List (String × α)
  | [] => []
  | f :: rest => if f.1 ∈ rest.map Prod.fst then kept rest else f :: kept rest

theorem kept_sublist (fields : List (String × α)) : (kept fields).Sublist fields := by
  induction fields with
  | nil => exact .slnil
  | cons f rest ih =>
    rw [kept]
    split
    · exact ih.cons f
    · exact ih.cons_cons f

/-- A field stays if none of those after it has its name. -/
theorem get?_ofList_append {name : String} (a : α) (before : List (String × α))
    {after : List (String × α)} (h : name ∉ after.map Prod.fst) :
    get? name (ofList (before ++ (name, a) :: after)) = some a := by
  induction after using List.reverseRecOn with
  | nil => rw [ofList_append_singleton, get?_insert_self]
  | append_singleton after f ih =>
    rw [List.map_append, List.mem_append, not_or] at h
    have hne : f.1 ≠ name := by
      intro e
      exact h.2 (by simp [e])
    have hsplit : before ++ (name, a) :: (after ++ [f]) =
        (before ++ (name, a) :: after) ++ [f] := by simp
    rw [hsplit, ofList_append_singleton, get?_insert_of_ne f.2 hne, ih h.1]

/-- Of parts that belong to fields, those stay whose fields do. -/
theorem exists_kept_parts (parts : List ((String × α) × β)) :
    ∃ left : List ((String × α) × β), left.Sublist parts ∧
      left.map Prod.fst = kept (parts.map Prod.fst) ∧
      ∀ p ∈ left, ∃ before after, parts = before ++ p :: after ∧
        p.1.1 ∉ after.map fun q => q.1.1 := by
  induction parts with
  | nil => exact ⟨[], .slnil, rfl, by simp⟩
  | cons p parts ih =>
    obtain ⟨left, hsub, hleft, hlast⟩ := ih
    have hrest : ∀ q ∈ left, ∃ before after, p :: parts = before ++ q :: after ∧
        q.1.1 ∉ after.map fun q => q.1.1 := by
      intro q hq
      obtain ⟨before, after, hsplit, hafter⟩ := hlast q hq
      exact ⟨p :: before, after, by rw [hsplit]; rfl, hafter⟩
    have hnames : (parts.map Prod.fst).map Prod.fst = parts.map fun q => q.1.1 := by simp
    by_cases hname : p.1.1 ∈ (parts.map Prod.fst).map Prod.fst
    · have hkept : kept ((p :: parts).map Prod.fst) = kept (parts.map Prod.fst) := by
        rw [List.map_cons, kept, if_pos hname]
      exact ⟨left, hsub.cons p, hleft.trans hkept.symm, hrest⟩
    · have hkept : kept ((p :: parts).map Prod.fst) = p.1 :: kept (parts.map Prod.fst) := by
        rw [List.map_cons, kept, if_neg hname]
      refine ⟨p :: left, hsub.cons_cons p, ?_, ?_⟩
      · rw [List.map_cons, hleft, hkept]
      · intro q hq
        rcases List.mem_cons.1 hq with rfl | hq
        · exact ⟨[], parts, rfl, hnames ▸ hname⟩
        · exact hrest q hq

end Record

namespace Codec

/-! ## Children -/

/-- The payload of a tagged union, with the codec that the tag selects. -/
def operand (cases : CaseTable) : Value → List (Codec × Value)
  | .array [.int tag, payload] =>
      match cases.lookup (UInt32.ofNat tag.toNat) with
      | some c => [(c, payload)]
      | none => []
  | _ => []

/-- The values one step inside a value, each with its codec.  The entries of a
    map count as pairs, and of fields with one name the last one is meant. -/
def children (env : Registries) : Codec → Value → List (Codec × Value)
  | .vector c, .array items => items.map fun item => (c, item)
  | .set c, .array items => items.map fun item => (c, item)
  | .map c d, .array items => items.map fun item => (.pair c d, item)
  | .optional c, v => if v.isNull then [] else [(c, v)]
  | .pair c d, .array [a, b] => [(c, a), (d, b)]
  | .variant _ cases, v => operand cases v
  | .struct fields _, .object record =>
      (Record.kept fields).map fun f => (f.2, Value.field record f.1)
  | .operation link, v =>
      match (env link.registry).table with
      | .ok table => operand table v
      | .error _ => []
  | _, _ => []

section Children

variable {env : Registries} {c d : Codec} {v w : Value} {p : Codec × Value}

theorem operand_of_lookup {cases : CaseTable} {tag : UInt32} (h : cases.lookup tag = some c)
    (payload : Value) : operand cases (.array [.int tag.toNat, payload]) = [(c, payload)] := by
  simp only [operand, Int.toNat_natCast, UInt32.ofNat_toNat, h]

theorem arrayDepth_lt_of_mem_operand {cases : CaseTable} (h : p ∈ operand cases v) :
    p.2.arrayDepth < v.arrayDepth := by
  unfold operand at h
  split at h
  · split at h
    · obtain rfl := List.mem_singleton.1 h
      exact Value.arrayDepth_lt_array (by simp)
    · cases h
  · cases h

/-- A child nests less deep, or it has a smaller codec. -/
theorem smaller_of_mem_children (h : p ∈ children env c v) :
    p.2.arrayDepth < v.arrayDepth ∨ p.2.arrayDepth ≤ v.arrayDepth ∧ sizeOf p.1 < sizeOf c := by
  unfold children at h
  split at h
  · obtain ⟨item, hitem, rfl⟩ := List.mem_map.1 h
    exact .inl (Value.arrayDepth_lt_array hitem)
  · obtain ⟨item, hitem, rfl⟩ := List.mem_map.1 h
    exact .inl (Value.arrayDepth_lt_array hitem)
  · obtain ⟨item, hitem, rfl⟩ := List.mem_map.1 h
    exact .inl (Value.arrayDepth_lt_array hitem)
  · split at h
    · cases h
    · obtain rfl := List.mem_singleton.1 h
      exact .inr ⟨Nat.le_refl _, by simp⟩
  · rename_i a b
    left
    rcases List.mem_cons.1 h with rfl | h
    · exact Value.arrayDepth_lt_array (by simp)
    · obtain rfl := List.mem_singleton.1 h
      exact Value.arrayDepth_lt_array (by simp)
  · exact .inl (arrayDepth_lt_of_mem_operand h)
  · rename_i fields _ record
    obtain ⟨⟨name, d⟩, hf, rfl⟩ := List.mem_map.1 h
    have hmem := List.sizeOf_lt_of_mem ((Record.kept_sublist fields).subset hf)
    simp only [Prod.mk.sizeOf_spec] at hmem
    right
    refine ⟨Value.arrayDepth_field_le record name, ?_⟩
    simp only [struct.sizeOf_spec]
    omega
  · split at h
    · exact .inl (arrayDepth_lt_of_mem_operand h)
    · cases h
  · cases h

theorem lex_of_mem_children (h : p ∈ children env c v) :
    Prod.Lex (· < ·) (· < ·) (p.2.arrayDepth, sizeOf p.1) (v.arrayDepth, sizeOf c) := by
  rcases smaller_of_mem_children h with hlt | ⟨hle, hlt⟩
  · exact .left _ _ hlt
  · rcases Nat.lt_or_eq_of_le hle with hlt' | heq
    · exact .left _ _ hlt'
    · rw [heq]
      exact .right _ hlt

theorem children_induction (env : Registries) {P : Codec → Value → Prop}
    (h : ∀ c v, (∀ p ∈ children env c v, P p.1 p.2) → P c v) (c : Codec) (v : Value) : P c v := by
  apply h
  intro p hp
  exact children_induction env h p.1 p.2
termination_by (v.arrayDepth, sizeOf c)
decreasing_by exact lex_of_mem_children hp

/-- A result for a value from those for its children. -/
def fold {α : Type} (env : Registries) (f : Codec → List α → α) (c : Codec) (v : Value) : α :=
  f c ((children env c v).attach.map fun p => fold env f p.1.1 p.1.2)
termination_by (v.arrayDepth, sizeOf c)
decreasing_by exact lex_of_mem_children p.2

theorem fold_eq {α : Type} (f : Codec → List α → α) (c : Codec) (v : Value) :
    fold env f c v = f c ((children env c v).map fun p => fold env f p.1 p.2) := by
  have hresults : (children env c v).attach.map (fun p => fold env f p.1.1 p.1.2) =
      (children env c v).map fun p => fold env f p.1 p.2 :=
    List.attach_map_val (f := fun p : Codec × Value => fold env f p.1 p.2)
  rw [fold, hresults]

end Children

/-! ## What is counted -/

/-- How many unions a codec opens itself. -/
def opens : Codec → Nat
  | .variant _ _ | .operation _ => 1
  | _ => 0

def isCollection : Codec → Bool
  | .vector _ | .set _ | .map _ _ => true
  | _ => false

/-- How many tagged unions lie inside one another on the deepest path into a
    value. -/
def unionDepth (env : Registries) : Codec → Value → Nat :=
  fold env fun c depths => c.opens + depths.foldr max 0

/-- How many elements and entries the vectors, sets and maps in a value have
    together, at all levels. -/
def elementCount (env : Registries) : Codec → Value → Nat :=
  fold env fun c counts => (if c.isCollection then counts.length else 0) + counts.sum

theorem unionDepth_eq (env : Registries) (c : Codec) (v : Value) :
    unionDepth env c v =
      c.opens + ((children env c v).map fun p => unionDepth env p.1 p.2).foldr max 0 :=
  fold_eq _ c v

theorem elementCount_eq (env : Registries) (c : Codec) (v : Value) :
    elementCount env c v = (if c.isCollection then (children env c v).length else 0) +
      ((children env c v).map fun p => elementCount env p.1 p.2).sum := by
  rw [elementCount, fold_eq, List.length_map]

/-! ## Where the children stand -/

section Spells

variable {env : Registries} {c : Codec} {k : Nat} {bs : Bytes} {v : Value}

/-- What was rearranged after a function was applied could have been before. -/
theorem exists_perm_of_perm_map {α β : Type} {f : α → β} {as : List α} {bs : List β}
    (h : bs.Perm (as.map f)) : ∃ as' : List α, as'.Perm as ∧ bs = as'.map f := by
  have hmap : List.Forall₂ (fun b a => b = f a) (as.map f) as := by
    rw [List.forall₂_map_left_iff, List.forall₂_same]
    intro a _
    rfl
  obtain ⟨as', has', hperm⟩ := List.perm_comp_forall₂ h hmap
  have hbs : List.Forall₂ Eq bs (as'.map f) := List.forall₂_map_right_iff.2 has'
  exact ⟨as', hperm, List.forall₂_eq_eq_eq ▸ hbs⟩

/-- The bytes of a value are divided among its children: each has a spelling of
    its own in them, and a collection starts with the number of them. -/
structure Divides (env : Registries) (k : Nat) (c : Codec) (v : Value) (bs : Bytes)
    (parts : List ((Codec × Value) × Bytes)) : Prop where
  children : parts.map Prod.fst = Codec.children env c v
  spells : ∀ p ∈ parts, Spells env k p.1.1 p.2 p.1.2
  bytes : ∃ start rest, bs = start ++ rest ∧ (parts.flatMap Prod.snd).length ≤ rest.length ∧
    (c.isCollection = true → Varint.Counts parts.length start)

theorem divides_nil (hcollection : c.isCollection = false) (hchildren : children env c v = []) :
    Divides env k c v bs [] :=
  ⟨hchildren.symm, by simp, [], bs, rfl, Nat.zero_le _, by simp [hcollection]⟩

/-- Of a collection each entry is a child, in whichever order. -/
theorem divides_collection {α : Type} {parts sorted : List α} {count : Bytes}
    {f : α → Codec × Value} {g : α → Bytes} (hperm : sorted.Perm parts)
    (hcount : Varint.Counts parts.length count) (hchildren : sorted.map f = children env c v)
    (h : ∀ e ∈ parts, Spells env k (f e).1 (g e) (f e).2) :
    Divides env k c v (count ++ parts.flatMap g) (sorted.map fun e => (f e, g e)) where
  children := by
    rw [List.map_map]
    exact hchildren
  spells := by
    intro p hp
    obtain ⟨e, he, rfl⟩ := List.mem_map.1 hp
    exact h e (hperm.subset he)
  bytes := by
    have hbytes : (sorted.map fun e => (f e, g e)).flatMap Prod.snd = sorted.flatMap g :=
      List.flatMap_map ..
    refine ⟨count, parts.flatMap g, rfl, ?_, fun _ => ?_⟩
    · rw [hbytes]
      exact (hperm.flatMap_right g).length_eq.le
    · rw [List.length_map, hperm.length_eq]
      exact hcount

theorem divides_single {p : Codec × Value} {start : Bytes} (hcollection : c.isCollection = false)
    (hchildren : children env c v = [p]) (h : Spells env k p.1 bs p.2) :
    Divides env k c v (start ++ bs) [(p, bs)] :=
  ⟨hchildren.symm, by simpa using h, start, bs, rfl, by simp, by simp [hcollection]⟩

/-- Of what was read for one name, only the last is in the value. -/
theorem divides_struct {ignoreUnknown : Bool} {parts : List ((String × Codec) × Order.Entry)}
    (h : ∀ p ∈ parts, Spells env k p.1.2 p.2.1 p.2.2) :
    ∃ left, Divides env k (.struct (parts.map Prod.fst) ignoreUnknown)
      (.object (Record.ofList (parts.map fun p => (p.1.1, p.2.2)))) (parts.flatMap fun p => p.2.1)
      left := by
  obtain ⟨left, hsub, hleft, hlast⟩ := Record.exists_kept_parts parts
  refine ⟨left.map fun p => ((p.1.2, p.2.2), p.2.1), ?_, ?_, [], _, rfl, ?_, ?_⟩
  · rw [children, ← hleft, List.map_map, List.map_map]
    apply List.map_congr_left
    intro p hp
    obtain ⟨before, after, rfl, hname⟩ := hlast p hp
    have hafter : p.1.1 ∉ (after.map fun q => (q.1.1, q.2.2)).map Prod.fst := by
      rw [List.map_map]
      exact hname
    have hfield := Record.get?_ofList_append p.2.2 (before.map fun q => (q.1.1, q.2.2)) hafter
    simp [Value.field, hfield]
  · intro p hp
    obtain ⟨q, hq, rfl⟩ := List.mem_map.1 hp
    exact h q (hsub.subset hq)
  · have hbytes : (left.map fun p => ((p.1.2, p.2.2), p.2.1)).flatMap Prod.snd =
        left.flatMap fun p => p.2.1 := List.flatMap_map ..
    rw [hbytes]
    exact (hsub.flatMap fun p => p.2.1).length_le
  · simp [isCollection]

/-- The bytes that a value was read from are divided among its children, and
    what unions may be open in them are those that may be open altogether, less
    the one that the codec opens. -/
theorem Spells.divides (h : Spells env k c bs v) :
    ∃ j parts, k = c.opens + j ∧ Divides env j c v bs parts := by
  cases h with
  | vector hcount h =>
    exact ⟨k, _, (Nat.zero_add k).symm,
      divides_collection (.refl _) hcount (List.map_map.symm) h⟩
  | set hcount h hsorted =>
    obtain ⟨sorted, hperm, -, rfl⟩ := Order.exists_perm_of_sortUnique hsorted
    exact ⟨k, _, (Nat.zero_add k).symm,
      divides_collection hperm hcount (List.map_map.symm) h⟩
  | @map _ c d _ parts _ hcount hkeys hvalues hsorted =>
    obtain ⟨sorted, hperm, -, rfl⟩ := Order.exists_perm_of_sortUnique hsorted
    -- What is sorted by its key brings its value along.
    obtain ⟨parts', hperm', rfl⟩ := exists_perm_of_perm_map hperm
    have hpairs : ∀ e ∈ parts, Spells env k (.pair c d) (e.1.1 ++ e.2.1)
        (Value.entry (e.1.2, e.2.2)) := fun e he => .pair (hkeys e he) (hvalues e he)
    refine ⟨k, _, (Nat.zero_add k).symm,
      divides_collection (f := fun e => (.pair c d, Value.entry (e.1.2, e.2.2))) hperm' hcount ?_
        hpairs⟩
    rw [children, List.map_map, List.map_map]
    rfl
  | @present _ c bs v h =>
    by_cases hnull : v.isNull
    · exact ⟨k, [], (Nat.zero_add k).symm, divides_nil rfl (by simp [children, hnull])⟩
    · have hchildren : children env (.optional c) v = [(c, v)] := by simp [children, hnull]
      have hdivides : Divides env k (.optional c) v ([1] ++ bs) [((c, v), bs)] :=
        divides_single rfl hchildren h
      exact ⟨k, _, (Nat.zero_add k).symm, hdivides⟩
  | @pair _ c d as bs a b ha hb =>
    refine ⟨k, [((c, a), as), ((d, b), bs)], (Nat.zero_add k).symm, rfl, ?_, [], as ++ bs, rfl,
      ?_, ?_⟩
    · simpa using ⟨ha, hb⟩
    · simp
    · simp [isCollection]
  | variant _ hcase h =>
    exact ⟨_, _, Nat.add_comm _ 1, divides_single rfl (operand_of_lookup hcase _) h⟩
  | @operation _ link _ tag c _ _ payload htable _ hcase h =>
    have hchildren : children env (.operation link) (.array [.int tag.toNat, payload]) =
        [(c, payload)] := by simp only [children, htable, operand_of_lookup hcase]
    exact ⟨_, _, Nat.add_comm _ 1, divides_single rfl hchildren h⟩
  | struct h =>
    obtain ⟨left, hleft⟩ := divides_struct h
    exact ⟨k, left, (Nat.zero_add k).symm, hleft⟩
  | absent => exact ⟨k, [], (Nat.zero_add k).symm, divides_nil rfl rfl⟩
  | _ => exact ⟨k, [], (Nat.zero_add k).symm, divides_nil rfl rfl⟩

end Spells

end Codec

end ChainCodec
