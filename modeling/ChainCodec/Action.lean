/-! # Actions on a state

    Reading and writing both work on a state and may fail.  What they did to
    the state before a failure stays done, so the state is a result in the
    case of failure as well. -/

namespace ChainCodec

/-- A step from a state to a result or a failure, and the state after it. -/
def Action (σ ε α : Type) : Type := σ → Except ε α × σ

namespace Action

variable {σ ε ε' α β : Type}

def pure (a : α) : Action σ ε α := fun s => (.ok a, s)

def fail (e : ε) : Action σ ε α := fun s => (.error e, s)

def bind (x : Action σ ε α) (f : α → Action σ ε β) : Action σ ε β := fun s =>
  match x s with
  | (.ok a, s') => f a s'
  | (.error e, s') => (.error e, s')

instance : Monad (Action σ ε) where
  pure := Action.pure
  bind := Action.bind

/-- A result that does not look at the state. -/
def ofExcept (x : Except ε α) : Action σ ε α := fun s => (x, s)

instance : MonadLift (Except ε) (Action σ ε) := ⟨ofExcept⟩

/-- The state as it is. -/
def state : Action σ ε σ := fun s => (.ok s, s)

def modify (f : σ → σ) : Action σ ε Unit := fun s => (.ok (), f s)

def mapError (f : ε → ε') (x : Action σ ε α) : Action σ ε' α := fun s =>
  match x s with
  | (.ok a, s') => (.ok a, s')
  | (.error e, s') => (.error (f e), s')

@[simp] theorem pure_apply (a : α) (s : σ) :
    (Pure.pure a : Action σ ε α) s = (.ok a, s) := rfl

@[simp] theorem fail_apply (e : ε) (s : σ) : (fail e : Action σ ε α) s = (.error e, s) := rfl

@[simp] theorem ofExcept_apply (x : Except ε α) (s : σ) :
    (ofExcept x : Action σ ε α) s = (x, s) := rfl

theorem bind_apply (x : Action σ ε α) (f : α → Action σ ε β) (s : σ) :
    (x >>= f) s = match x s with
      | (.ok a, s') => f a s'
      | (.error e, s') => (.error e, s') := rfl

theorem bind_ok {x : Action σ ε α} {s s' : σ} {a : α} (h : x s = (.ok a, s'))
    (f : α → Action σ ε β) : (x >>= f) s = f a s' := by
  simp [bind_apply, h]

theorem bind_error {x : Action σ ε α} {s s' : σ} {e : ε} (h : x s = (.error e, s'))
    (f : α → Action σ ε β) : (x >>= f) s = (.error e, s') := by
  simp [bind_apply, h]

instance : LawfulMonad (Action σ ε) := LawfulMonad.mk' (Action σ ε)
  (by
    intro α x
    funext s
    simp only [Functor.map, bind]
    rcases x s with ⟨_ | _, _⟩ <;> rfl)
  (fun _ _ => rfl)
  (by
    intro α β γ x f g
    funext s
    simp only [bind_apply]
    rcases x s with ⟨_ | _, _⟩ <;> rfl)

/-- What follows an action needs to agree only where the action ends. -/
theorem bind_congr_at {x : Action σ ε α} {f g : α → Action σ ε β} {s : σ}
    (h : ∀ a s', x s = (.ok a, s') → f a s' = g a s') : (x >>= f) s = (x >>= g) s := by
  simp only [bind_apply]
  rcases hx : x s with ⟨_ | a, s'⟩
  · rfl
  · exact h a s' hx

/-- What follows a result needs to agree on that result only. -/
theorem liftM_bind_congr {x : Except ε α} {f g : α → Action σ ε β}
    (h : ∀ a, x = .ok a → f a = g a) :
    ((liftM x : Action σ ε α) >>= f) = (liftM x : Action σ ε α) >>= g := by
  funext s
  refine bind_congr_at fun a s' hx => ?_
  rw [h a (congrArg Prod.fst hx)]

end Action

theorem Except.bind_congr_ok {ε α β : Type} {x : Except ε α} {f g : α → Except ε β}
    (h : ∀ a, x = .ok a → f a = g a) : (x >>= f) = x >>= g := by
  cases x with
  | error e => rfl
  | ok a => exact h a rfl

/-! ## Sequences of parts -/

section Sequence

variable {m : Type → Type} [Monad m] {α β : Type}

/-- Runs `f` on each item with its index, counted from `start`. -/
def traverseFrom (f : Nat → α → m β) : (start : Nat) → List α → m (List β)
  | _, [] => pure []
  | i, a :: as => do
      let b ← f i a
      let bs ← traverseFrom f (i + 1) as
      pure (b :: bs)

/-- Runs `f` on `count` indexes, counted from `start`. -/
def repeatFrom (f : Nat → m β) : (start count : Nat) → m (List β)
  | _, 0 => pure []
  | i, count + 1 => do
      let b ← f i
      let bs ← repeatFrom f (i + 1) count
      pure (b :: bs)

theorem traverseFrom_congr {f g : Nat → α → m β} {as : List α} {start : Nat}
    (h : ∀ i, ∀ a ∈ as, f i a = g i a) : traverseFrom f start as = traverseFrom g start as := by
  induction as generalizing start with
  | nil => rfl
  | cons a as ih =>
    simp only [traverseFrom]
    rw [h start a (by simp), ih fun i b hb => h i b (by simp [hb])]

end Sequence

/-- Every result is that of one of the items. -/
theorem exists_of_mem_traverseFrom {ε α β : Type} {f : Nat → α → Except ε β} {start : Nat}
    {as : List α} {bs : List β} (h : traverseFrom f start as = .ok bs) {b : β} (hb : b ∈ bs) :
    ∃ i, ∃ a ∈ as, f i a = .ok b := by
  induction as generalizing start bs with
  | nil => cases h; cases hb
  | cons a as ih =>
    simp only [traverseFrom] at h
    cases ha : f start a with
    | error e => rw [ha] at h; cases h
    | ok b' =>
      cases hr : traverseFrom f (start + 1) as with
      | error e => rw [ha, hr] at h; cases h
      | ok rest =>
        rw [ha, hr] at h
        cases h
        rcases List.mem_cons.1 hb with rfl | hb
        · exact ⟨start, a, by simp, ha⟩
        · obtain ⟨i, a', ha', hf⟩ := ih hr hb
          exact ⟨i, a', by simp [ha'], hf⟩

end ChainCodec
