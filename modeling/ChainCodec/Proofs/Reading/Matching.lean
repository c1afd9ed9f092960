import ChainCodec.Codec.Read
import ChainCodec.Proofs.Order
import ChainCodec.Proofs.Sequence

/-! # Reading the same bytes in two ways

    Two actions are matched if on every reader both stop for the same reason at
    the same place, or both go equally far and give related results.  Matched
    actions cannot be told apart but by their results, so this passes from parts
    to wholes, whatever the relation between the results is. -/

namespace ChainCodec

/-! ## Sorting with other values -/

namespace Order

/-- Where equal neighbours stand depends on the keys only. -/
theorem repeated?_eq_of_keys {entries entries' : List Entry}
    (h : entries.map Prod.fst = entries'.map Prod.fst) :
    repeated? entries = repeated? entries' := by
  induction entries generalizing entries' with
  | nil =>
    cases entries' with
    | nil => rfl
    | cons _ _ => cases h
  | cons a entries ih =>
    cases entries' with
    | nil => cases h
    | cons a' entries' =>
      simp only [List.map_cons, List.cons.injEq] at h
      have hrest := ih h.2
      cases entries with
      | nil =>
        cases entries' with
        | nil => rfl
        | cons _ _ => cases h.2
      | cons b rest =>
        cases entries' with
        | nil => cases h.2
        | cons b' rest' =>
          have hb : b.1 = b'.1 := (List.cons.inj h.2).1
          simp only [repeated?, h.1, hb, hrest]

/-- Entries with the same keys are sorted alike. -/
theorem sortUnique_alike {R : Value → Value → Prop} {entries entries' : List Entry}
    (h : List.Forall₂ (fun e e' => e.1 = e'.1 ∧ R e.2 e'.2) entries entries') :
    (∃ values values', sortUnique entries = .ok values ∧ sortUnique entries' = .ok values' ∧
      List.Forall₂ R values values') ∨
    ∃ bs, sortUnique entries = .error bs ∧ sortUnique entries' = .error bs := by
  -- Both lists are images of one list of pairs, which is sorted once.
  obtain ⟨pairs, rfl, rfl, hpairs⟩ := exists_zip h
  have hsort : (pairs.mergeSort fun p q => le p.1 q.1).map Prod.fst = sort (pairs.map Prod.fst) :=
    List.map_mergeSort fun _ _ _ _ => rfl
  have hsort' : (pairs.mergeSort fun p q => le p.1 q.1).map Prod.snd =
      sort (pairs.map Prod.snd) := by
    apply List.map_mergeSort
    intro p hp q hq
    simp only [le, (hpairs p hp).1, (hpairs q hq).1]
  have hmem : ∀ p ∈ pairs.mergeSort fun p q => le p.1 q.1, p.1.1 = p.2.1 ∧ R p.1.2 p.2.2 :=
    fun p hp => hpairs p (List.mem_mergeSort.1 hp)
  generalize pairs.mergeSort (fun p q => le p.1 q.1) = sorted at hsort hsort' hmem
  have hkeys : (sorted.map Prod.fst).map Prod.fst = (sorted.map Prod.snd).map Prod.fst := by
    rw [List.map_map, List.map_map]
    exact List.map_congr_left fun p hp => (hmem p hp).1
  simp only [sortUnique, ← hsort, ← hsort', repeated?_eq_of_keys hkeys]
  cases repeated? (sorted.map Prod.snd) with
  | some bs => exact .inr ⟨bs, rfl, rfl⟩
  | none =>
    refine .inl ⟨_, _, rfl, rfl, ?_⟩
    rw [List.map_map, List.map_map, List.forall₂_map_left_iff, List.forall₂_map_right_iff]
    exact List.forall₂_same.2 fun p hp => (hmem p hp).2

end Order

/-! ## Actions -/

namespace Read

variable {α α' β β' : Type} {R : α → α' → Prop} {S : β → β' → Prop} {x : Read α} {y : Read α'}

/-- Both actions stop alike, or they go equally far and their results are
    related. -/
def Matched (R : α → α' → Prop) (x : Read α) (y : Read α') : Prop :=
  ∀ r, (∃ a b s, x r = (.ok a, s) ∧ y r = (.ok b, s) ∧ R a b) ∨
    ∃ halt s, x r = (.error halt, s) ∧ y r = (.error halt, s)

theorem matched_pure {a : α} {b : α'} (h : R a b) : Matched R (pure a) (pure b) :=
  fun r => .inl ⟨a, b, r, rfl, rfl, h⟩

theorem matched_fail (e : Error) : Matched R (fail e) (fail e) := fun r => .inr ⟨_, r, rfl, rfl⟩

/-- An action is matched with itself. -/
theorem matched_self (x : Read α) : Matched Eq x x := by
  intro r
  rcases h : x r with ⟨halt | a, s⟩
  · exact .inr ⟨halt, s, rfl, rfl⟩
  · exact .inl ⟨a, a, s, rfl, rfl, rfl⟩

theorem Matched.imp {S : α → α' → Prop} (h : Matched R x y) (himp : ∀ a b, R a b → S a b) :
    Matched S x y := by
  intro r
  rcases h r with ⟨a, b, s, hx, hy, hR⟩ | hstop
  · exact .inl ⟨a, b, s, hx, hy, himp a b hR⟩
  · exact .inr hstop

theorem Matched.bind {f : α → Read β} {g : α' → Read β'} (h : Matched R x y)
    (hf : ∀ a b, R a b → Matched S (f a) (g b)) : Matched S (x >>= f) (y >>= g) := by
  intro r
  rcases h r with ⟨a, b, s, hx, hy, hR⟩ | ⟨halt, s, hx, hy⟩
  · rw [Action.bind_ok hx, Action.bind_ok hy]
    exact hf a b hR s
  · rw [Action.bind_error hx, Action.bind_error hy]
    exact .inr ⟨halt, s, rfl, rfl⟩

/-- The same action comes first. -/
theorem Matched.after (x : Read α) {f : α → Read β} {g : α → Read β'}
    (hf : ∀ a, Matched S (f a) (g a)) : Matched S (x >>= f) (x >>= g) := by
  refine (matched_self x).bind fun a b hab => ?_
  rw [hab]
  exact hf b

/-- The same check comes first. -/
theorem Matched.afterResult (y : Except Error α) {f : α → Read β} {g : α → Read β'}
    (hf : ∀ a, y = .ok a → Matched S (f a) (g a)) :
    Matched S (ofResult y >>= f) (ofResult y >>= g) := by
  cases y with
  | error e => exact fun r => .inr ⟨.error e, r, rfl, rfl⟩
  | ok a => exact hf a rfl

/-- Results that are only wrapped up. -/
theorem Matched.map {f : α → β} {g : α' → β'} (h : Matched R x y)
    (hf : ∀ a b, R a b → S (f a) (g b)) :
    Matched S (x >>= fun a => pure (f a)) (y >>= fun b => pure (g b)) :=
  h.bind fun a b hab => matched_pure (hf a b hab)

theorem Matched.within (h : Matched R x y) (c : Context) :
    Matched R (Read.within c x) (Read.within c y) := by
  intro r
  simp only [Read.within, Action.mapError]
  rcases h r with ⟨a, b, s, hx, hy, hR⟩ | ⟨halt, s, hx, hy⟩
  · exact .inl ⟨a, b, s, by rw [hx], by rw [hy], hR⟩
  · exact .inr ⟨halt.within c, s, by rw [hx], by rw [hy]⟩

theorem Matched.nested (h : Matched R x y) : Matched R (Read.nested x) (Read.nested y) := by
  refine .after enter fun _ r => ?_
  rcases h r with ⟨a, b, s, hx, hy, hR⟩ | ⟨halt, s, hx, hy⟩
  · exact .inl ⟨a, b, s.leave, by rw [thenLeave, hx], by rw [thenLeave, hy], hR⟩
  · exact .inr ⟨halt, s.leave, by rw [thenLeave, hx], by rw [thenLeave, hy]⟩

theorem Matched.repeatFrom {f : Nat → Read α} {g : Nat → Read α'}
    (h : ∀ i, Matched R (f i) (g i)) (start count : Nat) :
    Matched (List.Forall₂ R) (repeatFrom f start count) (repeatFrom g start count) := by
  induction count generalizing start with
  | zero => exact matched_pure .nil
  | succ count ih =>
    refine (h start).bind fun a b hab => ?_
    exact (ih (start + 1)).map fun as bs hrest => .cons hab hrest

/-- Entries with the same keys are refused alike or put in the same order. -/
theorem matched_ordered {R : Value → Value → Prop} {S : Value → Value → Prop}
    (duplicate : Bytes → Cause) {entries entries' : List Order.Entry}
    (h : List.Forall₂ (fun e e' => e.1 = e'.1 ∧ R e.2 e'.2) entries entries')
    (hS : ∀ values values', List.Forall₂ R values values' → S (.array values) (.array values')) :
    Matched S (ordered duplicate entries) (ordered duplicate entries') := by
  intro r
  rcases Order.sortUnique_alike h with ⟨values, values', hsorted, hsorted', hvalues⟩ |
    ⟨bs, hrepeated, hrepeated'⟩
  · refine .inl ⟨_, _, r, ?_, ?_, hS values values' hvalues⟩
    · simp only [ordered, ofResult, hsorted]
      rfl
    · simp only [ordered, ofResult, hsorted']
      rfl
  · refine .inr ⟨.error (.decode (duplicate bs)), r, ?_, ?_⟩
    · simp only [ordered, ofResult, hrepeated]
      rfl
    · simp only [ordered, ofResult, hrepeated']
      rfl

end Read

end ChainCodec
