import ChainCodec.Proofs.Reading.Turns
import ChainCodec.Proofs.Refusals

/-! # Outcomes after a loss

    Something that a program relies on may get lost.  What the program did before
    the loss, it does after it, unless it comes to the place where the loss is
    noticed; from there it fails.

    `Degrades` compares the two outcomes.  It passes from parts to wholes: what
    follows a part has to degrade only where the part succeeded before the loss. -/

namespace ChainCodec

/-! ## Outcomes -/

/-- The outcome after the loss is the one from before, or `Q` is the reason that
    the loss is noticed. -/
def Degrades {α : Type} (lost : α → Prop) (Q : Prop) (before after : α) : Prop :=
  after = before ∨ Q ∧ lost after

theorem Degrades.refl {α : Type} (lost : α → Prop) (Q : Prop) (a : α) : Degrades lost Q a a :=
  .inl rfl

theorem Degrades.imp {α : Type} {lost : α → Prop} {Q Q' : Prop} {before after : α}
    (h : Degrades lost Q before after) (hQ : Q → Q') : Degrades lost Q' before after :=
  h.imp_right fun h => ⟨hQ h.1, h.2⟩

/-- Nothing changes where there is no reason to notice the loss. -/
theorem Degrades.eq {α : Type} {lost : α → Prop} {Q : Prop} {before after : α}
    (h : Degrades lost Q before after) (hQ : ¬ Q) : after = before :=
  h.resolve_right fun h => hQ h.1

/-- An error of such a kind. -/
def FailsWith {ε α : Type} (P : ε → Prop) (x : Except ε α) : Prop := ∃ e, x = .error e ∧ P e

def Error.IsRegistry (e : Error) : Prop := e.kind = .registry

theorem Error.IsRegistry.within {e : Error} (h : e.IsRegistry) (c : Context) :
    (e.within c).IsRegistry := by
  have hkind : e.kind ≠ .bufferOutOfBound := by
    rw [h]
    decide
  rw [Error.IsRegistry, Error.within]
  simp only [if_neg hkind]
  exact h

/-! ## Checks -/

section Checks

variable {α β : Type} {Q : Prop} {x y : Except Error α} {f g : α → Except Error β}

/-- Results before and after the registry is lost. -/
abbrev ResultDegrades (Q : Prop) (x y : Except Error α) : Prop :=
  Degrades (FailsWith Error.IsRegistry) Q x y

namespace ResultDegrades

theorem bind (h : ResultDegrades Q x y) (hf : ∀ a, x = .ok a → ResultDegrades Q (f a) (g a)) :
    ResultDegrades Q (x >>= f) (y >>= g) := by
  rcases h with rfl | ⟨hQ, e, rfl, he⟩
  · cases y with
    | error e => exact .inl rfl
    | ok a => exact hf a rfl
  · exact .inr ⟨hQ, e, rfl, he⟩

/-- The same check comes first. -/
theorem after (x : Except Error α) (hf : ∀ a, x = .ok a → ResultDegrades Q (f a) (g a)) :
    ResultDegrades Q (x >>= f) (x >>= g) := bind (.refl _ _ x) hf

theorem within (h : ResultDegrades Q x y) (c : Context) :
    ResultDegrades Q (Check.within c x) (Check.within c y) := by
  rcases h with rfl | ⟨hQ, e, rfl, he⟩
  · exact .inl rfl
  · exact .inr ⟨hQ, e.within c, rfl, he.within c⟩

/-- A step has to degrade only where the steps before it succeeded. -/
theorem traverseFrom {f g : Nat → α → Except Error β} {as : List α}
    (h : ∀ before a after i, as = before ++ a :: after → (∀ x ∈ before, ∃ j b, f j x = .ok b) →
      ResultDegrades Q (f i a) (g i a)) (start : Nat) :
    ResultDegrades Q (traverseFrom f start as) (traverseFrom g start as) := by
  induction as generalizing start with
  | nil => exact .refl _ _ _
  | cons a as ih =>
    refine bind (h [] a as start rfl (by simp)) fun b hb => ?_
    refine bind (ih (fun before a' after i has hbefore => ?_) (start + 1)) fun bs _ => .refl _ _ _
    refine h (a :: before) a' after i (by rw [has, List.cons_append]) fun x hx => ?_
    rcases List.mem_cons.1 hx with rfl | hx
    · exact ⟨start, b, hb⟩
    · exact hbefore x hx

end ResultDegrades

end Checks

/-! ## Actions -/

section Actions

variable {σ ε α β : Type} {lost : ε → Prop} {Q : Prop} {x y : Action σ ε α}
  {f g : α → Action σ ε β} {s : σ}

/-- What two actions do to a state, before and after the loss. -/
abbrev ActionDegrades (lost : ε → Prop) (Q : Prop) (x y : Action σ ε α) (s : σ) : Prop :=
  Degrades (fun outcome => FailsWith lost outcome.1) Q (x s) (y s)

namespace ActionDegrades

theorem bind (h : ActionDegrades lost Q x y s)
    (hf : ∀ a t, x s = (.ok a, t) → ActionDegrades lost Q (f a) (g a) t) :
    ActionDegrades lost Q (x >>= f) (y >>= g) s := by
  simp only [ActionDegrades, Action.bind_apply] at h hf ⊢
  rcases h with h | ⟨hQ, e, he, hlost⟩
  · rw [h]
    rcases hx : x s with ⟨e | a, t⟩
    · exact .inl rfl
    · exact hf a t hx
  · rcases hy : y s with ⟨e' | a, t⟩
    · rw [hy] at he
      obtain rfl := Except.error.inj he
      exact .inr ⟨hQ, e', rfl, hlost⟩
    · rw [hy] at he
      cases he

/-- The same action comes first. -/
theorem after (x : Action σ ε α)
    (hf : ∀ a t, x s = (.ok a, t) → ActionDegrades lost Q (f a) (g a) t) :
    ActionDegrades lost Q (x >>= f) (x >>= g) s := bind (.refl _ _ _) hf

theorem mapError {k : ε → ε} (hk : ∀ e, lost e → lost (k e)) (h : ActionDegrades lost Q x y s) :
    ActionDegrades lost Q (x.mapError k) (y.mapError k) s := by
  simp only [ActionDegrades, Action.mapError] at h ⊢
  rcases h with h | ⟨hQ, e, he, hlost⟩
  · rw [h]
    exact .inl rfl
  · rcases hy : y s with ⟨e' | a, t⟩
    · rw [hy] at he
      cases he
      exact .inr ⟨hQ, k e, rfl, hk e hlost⟩
    · rw [hy] at he
      cases he

/-- A step has to degrade only where the steps before it succeeded. -/
theorem traverseFrom {f g : Nat → α → Action σ ε β} {as : List α}
    (h : ∀ before a after i t, as = before ++ a :: after →
      (∀ x ∈ before, ∃ j t b t', f j x t = (.ok b, t')) → ActionDegrades lost Q (f i a) (g i a) t)
    (start : Nat) (s : σ) :
    ActionDegrades lost Q (traverseFrom f start as) (traverseFrom g start as) s := by
  induction as generalizing start s with
  | nil => exact .refl _ _ _
  | cons a as ih =>
    refine bind (h [] a as start s rfl (by simp)) fun b t hb => ?_
    refine bind (ih (fun before a' after i t' has hbefore => ?_) (start + 1) t)
      fun bs _ _ => .refl _ _ _
    refine h (a :: before) a' after i t' (by rw [has, List.cons_append]) fun x hx => ?_
    rcases List.mem_cons.1 hx with rfl | hx
    · exact ⟨start, s, b, t, hb⟩
    · exact hbefore x hx

end ActionDegrades

end Actions

end ChainCodec
