import ChainCodec.Codec.Check
import Mathlib.Data.List.Forall2

/-! # When checks succeed

    A chain of checks succeeds when every link does, and a traversal when it
    does at every item.  Codecs are such chains, so what they accept is read
    off with the lemmas below instead of unfolding `bind`. -/

namespace ChainCodec

variable {ε ε' α β : Type}

/-! ## Chains -/

theorem Except.bind_eq_ok {x : Except ε α} {f : α → Except ε β} {b : β} :
    (x >>= f) = .ok b ↔ ∃ a, x = .ok a ∧ f a = .ok b := by
  cases x with
  | error e =>
    constructor
    · intro h
      cases h
    · intro h
      rcases h with ⟨a, h, _⟩
      cases h
  | ok a =>
    constructor
    · intro h
      exact ⟨a, rfl, h⟩
    · intro h
      rcases h with ⟨_, h, hb⟩
      cases h
      exact hb

theorem Except.pure_eq_ok {a b : α} : (pure a : Except ε α) = .ok b ↔ a = b := by
  constructor
  · intro h
    exact Except.ok.inj h
  · rintro rfl
    rfl

theorem Except.bind_ok {x : Except ε α} {a : α} (h : x = .ok a) (f : α → Except ε β) :
    (x >>= f) = f a := by
  rw [h]
  rfl

theorem Except.mapError_eq_ok {f : ε → ε'} {x : Except ε α} {a : α} :
    x.mapError f = .ok a ↔ x = .ok a := by
  cases x <;> simp [Except.mapError]

@[simp] theorem Check.within_eq_ok {c : Context} {x : Except Error α} {a : α} :
    Check.within c x = .ok a ↔ x = .ok a := Except.mapError_eq_ok

@[simp] theorem Check.fail_ne_ok {cause : Cause} {a : α} : Check.fail cause ≠ .ok a := by
  simp [Check.fail]

@[simp] theorem Check.mismatch_ne_ok {what : String} {v : Value} {a : α} :
    Check.mismatch what v ≠ .ok a := Check.fail_ne_ok

/-! ## Traversals -/

/-- A traversal succeeds with the results that its steps give one by one. -/
theorem traverseFrom_eq_ok {f : Nat → α → Except ε β} {R : α → β → Prop}
    (hf : ∀ i a b, f i a = .ok b ↔ R a b) {start : Nat} {as : List α} {bs : List β} :
    traverseFrom f start as = .ok bs ↔ List.Forall₂ R as bs := by
  induction as generalizing start bs with
  | nil =>
    rw [traverseFrom, Except.pure_eq_ok, List.forall₂_nil_left_iff]
    exact eq_comm
  | cons a as ih =>
    simp only [traverseFrom, Except.bind_eq_ok, Except.pure_eq_ok, hf, ih,
      List.forall₂_cons_left_iff]
    constructor
    · intro h
      rcases h with ⟨b, hb, rest, hrest, rfl⟩
      exact ⟨b, rest, hb, hrest, rfl⟩
    · intro h
      rcases h with ⟨b, rest, hb, hrest, rfl⟩
      exact ⟨b, hb, rest, hrest, rfl⟩

theorem forall₂_mem_right {R : α → β → Prop} {as : List α} {bs : List β}
    (h : List.Forall₂ R as bs) {b : β} (hb : b ∈ bs) : ∃ a ∈ as, R a b := by
  induction h with
  | nil => cases hb
  | cons hab _ ih =>
    rcases List.mem_cons.1 hb with rfl | hb
    · exact ⟨_, by simp, hab⟩
    · obtain ⟨a, ha, hR⟩ := ih hb
      exact ⟨a, by simp [ha], hR⟩

theorem forall₂_mem_left {R : α → β → Prop} {as : List α} {bs : List β}
    (h : List.Forall₂ R as bs) {a : α} (ha : a ∈ as) : ∃ b ∈ bs, R a b := by
  obtain ⟨b, hb, hR⟩ := forall₂_mem_right h.flip ha
  exact ⟨b, hb, hR⟩

theorem forall₂_imp_of_mem {R S : α → β → Prop} {as : List α} {bs : List β}
    (h : List.Forall₂ R as bs) (hS : ∀ a ∈ as, ∀ b, R a b → S a b) : List.Forall₂ S as bs := by
  induction h with
  | nil => exact .nil
  | cons hab _ ih =>
    exact .cons (hS _ (by simp) _ hab) (ih fun a ha => hS a (by simp [ha]))

/-- Items with distinct results are distinct. -/
theorem nodup_of_forall₂ {R : α → β → Prop} {as : List α} {bs : List β}
    (hR : Relator.RightUnique R) (h : List.Forall₂ R as bs) (hbs : bs.Nodup) : as.Nodup := by
  induction h with
  | nil => exact List.nodup_nil
  | cons hab hrest ih =>
    rw [List.nodup_cons] at hbs ⊢
    refine ⟨fun hmem => ?_, ih hbs.2⟩
    obtain ⟨b', hb', hab'⟩ := forall₂_mem_left hrest hmem
    exact hbs.1 (hR hab hab' ▸ hb')

/-- Results for all items make a list of results. -/
theorem exists_forall₂ {R : α → β → Prop} {as : List α} (h : ∀ a ∈ as, ∃ b, R a b) :
    ∃ bs, List.Forall₂ R as bs := by
  induction as with
  | nil => exact ⟨[], .nil⟩
  | cons a as ih =>
    obtain ⟨b, hb⟩ := h a (by simp)
    obtain ⟨bs, hbs⟩ := ih fun a' ha' => h a' (by simp [ha'])
    exact ⟨b :: bs, .cons hb hbs⟩

/-- Items and their results can be paired. -/
theorem exists_zip {R : α → β → Prop} {as : List α} {bs : List β} (h : List.Forall₂ R as bs) :
    ∃ ps : List (α × β), as = ps.map Prod.fst ∧ bs = ps.map Prod.snd ∧ ∀ p ∈ ps, R p.1 p.2 := by
  induction h with
  | nil => exact ⟨[], rfl, rfl, by simp⟩
  | @cons a b _ _ hab _ ih =>
    obtain ⟨ps, rfl, rfl, hps⟩ := ih
    refine ⟨(a, b) :: ps, rfl, rfl, ?_⟩
    intro p hp
    rcases List.mem_cons.1 hp with rfl | hp
    · exact hab
    · exact hps p hp

/-- Steps that are made one after the other for each item can be made one after
    the other for all items. -/
theorem forall₂_comp {γ : Type} {R : α → β → Prop} {S : β → γ → Prop} {as : List α}
    {cs : List γ} :
    List.Forall₂ (fun a c => ∃ b, R a b ∧ S b c) as cs ↔
      ∃ bs, List.Forall₂ R as bs ∧ List.Forall₂ S bs cs := by
  constructor
  · intro h
    induction h with
    | nil => exact ⟨[], .nil, .nil⟩
    | cons hac _ ih =>
      obtain ⟨b, hab, hbc⟩ := hac
      obtain ⟨bs, hR, hS⟩ := ih
      exact ⟨b :: bs, .cons hab hR, .cons hbc hS⟩
  · intro h
    rcases h with ⟨bs, hR, hS⟩
    induction hR generalizing cs with
    | nil =>
      cases hS
      exact .nil
    | cons hab _ ih =>
      cases hS with
      | cons hbc hS => exact .cons ⟨_, hab, hbc⟩ (ih hS)

/-- Results that are images are the images of a list. -/
theorem exists_forall₂_map {γ : Type} {R : α → γ → Prop} {f : γ → β} {as : List α} {bs : List β}
    (h : List.Forall₂ (fun a b => ∃ c, R a c ∧ b = f c) as bs) :
    ∃ cs, List.Forall₂ R as cs ∧ bs = cs.map f := by
  obtain ⟨cs, hcs, hbs⟩ := forall₂_comp.1 h
  refine ⟨cs, hcs, ?_⟩
  rw [← List.forall₂_eq_eq_eq, List.forall₂_map_right_iff]
  exact hbs.flip

end ChainCodec
