import ChainCodec.Codec.Read

/-! # Reads one after the other

    A run of several reads succeeds when each of them does from where the one
    before it ended.  `InTurn` lists what such reads give; the readers between
    them are determined by the first one.

    Loops over counted parts are runs of this kind: `Read.repeatFrom_eq_ok`. -/

namespace ChainCodec

/-! ## Successful actions -/

theorem Action.bind_eq_ok {σ ε α β : Type} {x : Action σ ε α} {f : α → Action σ ε β} {s s' : σ}
    {b : β} : (x >>= f) s = (.ok b, s') ↔ ∃ a t, x s = (.ok a, t) ∧ f a t = (.ok b, s') := by
  rw [Action.bind_apply]
  rcases x s with ⟨_ | a, t⟩
  · constructor
    · intro h
      cases h
    · rintro ⟨_, _, h, _⟩
      cases h
  · constructor
    · exact fun h => ⟨a, t, rfl, h⟩
    · rintro ⟨_, _, h, h'⟩
      cases h
      exact h'

namespace Read

variable {α β : Type} {r s t : Reader}

theorem pure_eq_ok {a b : α} : (pure a : Read α) r = (.ok b, s) ↔ a = b ∧ r = s := by
  rw [Action.pure_apply, Prod.mk.injEq, Except.ok.injEq]

theorem position_eq_ok {n : Nat} : position r = (.ok n, s) ↔ n = r.cursor ∧ r = s := by
  rw [position, Prod.mk.injEq, Except.ok.injEq, eq_comm]

theorem since_eq_ok {start : Nat} {bs : Bytes} :
    since start r = (.ok bs, s) ↔ bs = r.since start ∧ r = s := by
  rw [since, Prod.mk.injEq, Except.ok.injEq, eq_comm]

@[simp] theorem within_eq_ok {c : Context} {x : Read α} {a : α} :
    Read.within c x r = (.ok a, s) ↔ x r = (.ok a, s) := by
  simp only [Read.within, Action.mapError]
  rcases x r with ⟨_ | _, _⟩ <;> simp

/-! ## Runs -/

/-- Results that are given one after the other, from the first reader to the
    last one. -/
inductive InTurn (step : Reader → α → Reader → Prop) : Reader → List α → Reader → Prop
  | nil {r : Reader} : InTurn step r [] r
  | cons {r s t : Reader} {a : α} {as : List α} (h : step r a s) (hrest : InTurn step s as t) :
      InTurn step r (a :: as) t

variable {step : Reader → α → Reader → Prop}

/-- As many results as another run has are the same results, if every step has
    only one. -/
theorem InTurn.unique (hstep : ∀ r a a' s s', step r a s → step r a' s' → a = a' ∧ s = s')
    {as as' : List α} {t' : Reader} (h : InTurn step r as t) (h' : InTurn step r as' t')
    (hlength : as.length = as'.length) : as = as' ∧ t = t' := by
  induction h generalizing as' t' with
  | nil =>
    cases h' with
    | nil => exact ⟨rfl, rfl⟩
    | cons _ _ => cases hlength
  | cons h _ ih =>
    cases h' with
    | nil => cases hlength
    | cons h' hrest' =>
      obtain ⟨rfl, rfl⟩ := hstep _ _ _ _ _ h h'
      obtain ⟨rfl, rfl⟩ := ih hrest' (Nat.succ.inj hlength)
      exact ⟨rfl, rfl⟩

/-- A loop succeeds with the results of a run of as many steps. -/
theorem repeatFrom_eq_ok {f : Nat → Read β} {g : α → β}
    (hf : ∀ i r b s, f i r = (.ok b, s) ↔ ∃ a, step r a s ∧ b = g a) {start count : Nat}
    {bs : List β} :
    repeatFrom f start count r = (.ok bs, t) ↔
      ∃ as, InTurn step r as t ∧ as.length = count ∧ bs = as.map g := by
  induction count generalizing start r t bs with
  | zero =>
    simp only [repeatFrom, pure_eq_ok, List.length_eq_zero_iff]
    constructor
    · rintro ⟨rfl, rfl⟩
      exact ⟨[], .nil, rfl, rfl⟩
    · rintro ⟨_, h, rfl, rfl⟩
      cases h
      exact ⟨rfl, rfl⟩
  | succ count ih =>
    simp only [repeatFrom, Action.bind_eq_ok, hf, ih, pure_eq_ok]
    constructor
    · rintro ⟨_, s, ⟨a, ha, rfl⟩, _, _, ⟨as, has, rfl, rfl⟩, rfl, rfl⟩
      exact ⟨a :: as, .cons ha has, rfl, rfl⟩
    · rintro ⟨_, h, hlength, rfl⟩
      cases h with
      | nil => cases hlength
      | @cons _ s _ a as ha has =>
        exact ⟨g a, s, ⟨a, ha, rfl⟩, as.map g, t, ⟨as, has, Nat.succ.inj hlength, rfl⟩, rfl, rfl⟩

end Read

end ChainCodec
