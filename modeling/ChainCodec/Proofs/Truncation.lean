import ChainCodec.Proofs.Advance

/-! # Reading from a buffer that is cut off

    A read that succeeds looks at nothing behind the place where it ends.  So
    it does the same on a buffer that is cut off behind this place, and on one
    that is cut off before it, it runs into the end: it fails with an error of
    decoding.  For whole codecs this is `read_cuttable`.

    The statement needs the buffer to be shorter than addresses are, since
    otherwise the check that fails cannot be carried out. -/

namespace ChainCodec

/-- The same reader in a buffer that ends after `k` bytes. -/
def Reader.cut (k : Nat) (r : Reader) : Reader := { r with data := (r.data.toList.take k).toArray }

theorem Reader.slice_cut {k stop : Nat} (start : Nat) (r : Reader) (h : stop ≤ k) :
    (r.cut k).slice start stop = r.slice start stop := by
  simp only [slice, cut, Array.toList_extract, List.extract_eq_take_drop, List.drop_take,
    List.take_take]
  rw [Nat.min_eq_left (by omega)]

namespace Read

variable {α β : Type} {x : Read α} {f : α → Read β} {r : Reader}

/-- The action fails with an error of decoding. -/
def Falters (x : Read α) (r : Reader) : Prop :=
  ∃ e r', x r = (.error (.error e), r') ∧ e.isDecode = true

/-- Where the action succeeds, it does so in a buffer that is cut off behind its
    end, and falters in one that is cut off before. -/
def Cuttable (x : Read α) : Prop :=
  ∀ r a r' k, x r = (.ok a, r') → r.data.size < addressLimit → r.cursor ≤ k →
    (r'.cursor ≤ k → x (r.cut k) = (.ok a, r'.cut k)) ∧ (k < r'.cursor → Falters x (r.cut k))

theorem falters_bind (h : Falters x r) (f : α → Read β) : Falters (x >>= f) r := by
  obtain ⟨e, r', hx, he⟩ := h
  exact ⟨e, r', Action.bind_error hx f, he⟩

theorem falters_of_bind {r' : Reader} {a : α} (hx : x r = (.ok a, r')) (h : Falters (f a) r') :
    Falters (x >>= f) r := by
  obtain ⟨e, r'', hf, he⟩ := h
  exact ⟨e, r'', by rw [Action.bind_ok hx, hf], he⟩

/-! ## Actions -/

theorem cuttable_ofResult (y : Except Error α) : Cuttable (ofResult y) := by
  intro r a r' k h _ hk
  obtain ⟨hy, rfl⟩ := Prod.mk.inj h
  -- The cursor has not moved, so it is not behind the cut.
  refine ⟨fun _ => ?_, fun hlt => absurd hk (Nat.not_le.2 hlt)⟩
  exact Prod.ext hy rfl

theorem cuttable_take (n : Nat) : Cuttable (take n) := by
  intro r bs r' k h hsize hk
  have hstop : r.cursor + n ≤ r.data.size := by
    by_cases hstop : r.cursor + n ≤ r.data.size
    · exact hstop
    · simp only [take, if_neg hstop] at h
      split at h <;> cases h
  simp only [take, if_pos hstop] at h
  obtain ⟨hbs, rfl⟩ := Prod.mk.inj h
  have hcut : (r.cut k).data.size = min k r.data.size := by simp [Reader.cut]
  refine ⟨fun hle => ?_, fun hlt => ?_⟩
  · have hfits : (r.cut k).cursor + n ≤ (r.cut k).data.size := by
      rw [hcut]
      exact Nat.le_min.2 ⟨hle, hstop⟩
    have hslice := Reader.slice_cut (k := k) r.cursor r hle
    simp only [take, if_pos hfits]
    exact Prod.ext (by rw [← hbs]; exact congrArg Except.ok hslice) rfl
  · -- What is asked for ends behind the cut, but still has an address.
    have hpast : ¬ (r.cut k).cursor + n ≤ (r.cut k).data.size := by
      rw [hcut]
      exact fun hle => absurd (Nat.le_trans hle (Nat.min_le_left _ _)) (Nat.not_le.2 hlt)
    have haddress : (r.cut k).cursor + n < addressLimit := Nat.lt_of_le_of_lt hstop hsize
    refine ⟨.outOfBound r.cursor n (r.cut k).data.size, r.cut k, ?_, rfl⟩
    simp only [take, if_neg hpast, if_pos haddress]
    rfl

theorem cuttable_position : Cuttable position := by
  intro r a r' k h _ hk
  cases h
  exact ⟨fun _ => rfl, fun hlt => absurd hk (Nat.not_le.2 hlt)⟩

theorem cuttable_since (start : Nat) : Cuttable (since start) := by
  intro r bs r' k h _ hk
  cases h
  refine ⟨fun _ => ?_, fun hlt => absurd hk (Nat.not_le.2 hlt)⟩
  exact Prod.ext (congrArg Except.ok (Reader.slice_cut _ r hk)) rfl

theorem Cuttable.bind (hx : x.Cuttable) (hadvancing : x.Advancing) (hf : ∀ a, (f a).Cuttable)
    (hadvancing' : ∀ a, (f a).Advancing) : Cuttable (x >>= f) := by
  intro r b r'' k h hsize hk
  rcases hxr : x r with ⟨_ | a, r'⟩
  · rw [Action.bind_error hxr] at h
    cases h
  · rw [Action.bind_ok hxr] at h
    have hmoved := hadvancing.of_eq hxr
    have hmoved' := (hadvancing' a).of_eq h
    obtain ⟨hsame, hfalters⟩ := hx r a r' k hxr hsize hk
    -- The cut is in what the first action takes, or it is left to the second.
    by_cases hcut : r'.cursor ≤ k
    · obtain ⟨hsame', hfalters'⟩ := hf a r' b r'' k h (hmoved.data ▸ hsize) hcut
      refine ⟨fun hle => ?_, fun hlt => ?_⟩
      · rw [Action.bind_ok (hsame hcut), hsame' hle]
      · exact falters_of_bind (hsame hcut) (hfalters' hlt)
    · have hlt := Nat.not_le.1 hcut
      refine ⟨fun hle => ?_, fun _ => falters_bind (hfalters hlt) f⟩
      exact absurd (Nat.le_trans hmoved'.cursor_le hle) hcut

theorem Cuttable.within (hx : x.Cuttable) (c : Context) : Cuttable (Read.within c x) := by
  intro r a r' k h hsize hk
  have hxr : x r = (.ok a, r') := by
    simp only [Read.within, Action.mapError] at h
    rcases hxr : x r with ⟨_ | b, r₁⟩
    · rw [hxr] at h
      cases h
    · rwa [hxr] at h
  obtain ⟨hsame, hfalters⟩ := hx r a r' k hxr hsize hk
  refine ⟨fun hle => ?_, fun hlt => ?_⟩
  · simp only [Read.within, Action.mapError, hsame hle]
  · obtain ⟨e, r₁, he, hkind⟩ := hfalters hlt
    refine ⟨e.within c, r₁, ?_, (Error.isDecode_within c e).trans hkind⟩
    simp only [Read.within, Action.mapError, he, Halt.within]

theorem Cuttable.nested (hx : x.Cuttable) : Cuttable (Read.nested x) := by
  intro r a r' k h hsize hk
  by_cases hdepth : r.maxDepth ≤ r.depth
  · simp only [Read.nested, Action.bind_apply, enter, hdepth, if_true] at h
    cases h
  · have hdepth' : ¬ (r.cut k).maxDepth ≤ (r.cut k).depth := hdepth
    simp only [Read.nested, Action.bind_apply, enter, hdepth, if_false, thenLeave] at h
    rcases hin : x { r with depth := r.depth + 1 } with ⟨_ | b, r₁⟩
    · rw [hin] at h
      cases h
    · rw [hin] at h
      cases h
      -- Cutting the buffer and opening a union do not get in each other's way.
      obtain ⟨hsame, hfalters⟩ := hx _ a r₁ k hin hsize hk
      refine ⟨fun hle => ?_, fun hlt => ?_⟩
      · have hcut := hsame hle
        simp only [Read.nested, Action.bind_apply, enter, hdepth', if_false, thenLeave]
        exact congrArg (fun result => (result.1, result.2.leave)) hcut
      · obtain ⟨e, r₂, he, hkind⟩ := hfalters hlt
        refine ⟨e, r₂.leave, ?_, hkind⟩
        simp only [Read.nested, Action.bind_apply, enter, hdepth', if_false, thenLeave]
        exact congrArg (fun result => (result.1, result.2.leave)) he

theorem closed_cuttable : Closed fun x => x.Advancing ∧ x.Cuttable where
  ofResult _ := ⟨advancing_ofResult _, cuttable_ofResult _⟩
  take _ := ⟨advancing_take _, cuttable_take _⟩
  position := ⟨advancing_position, cuttable_position⟩
  since start := ⟨advancing_since start, cuttable_since start⟩
  bind hx hf := ⟨hx.1.bind fun a => (hf a).1, hx.2.bind hx.1 (fun a => (hf a).2) fun a => (hf a).1⟩
  within c hx := ⟨hx.1.within c, hx.2.within c⟩
  nested hx := ⟨hx.1.nested, hx.2.nested⟩

end Read

/-! ## Codecs -/

namespace Codec

open Read

/-- A codec reads the same from a buffer that is cut off behind what it reads,
    and falters where the cut is in it. -/
theorem read_cuttable (env : Registries) (c : Codec) : (read env c).Cuttable := by
  have hfuel (fuel : Nat) (link : OperationLink) :=
    readOperation_closed closed_cuttable (fun y => ⟨advancing_ofResult y, cuttable_ofResult y⟩)
      (fun n => ⟨advancing_take n, cuttable_take n⟩) env fuel link
  -- The bound on operations comes from the room, which is not cut.
  have hop (link : OperationLink) : Advancing (fun r => readOperation env (r.room + 1) link r) ∧
      Cuttable fun r => readOperation env (r.room + 1) link r :=
    ⟨fun r => (hfuel _ link).1 r, fun r a r' k h => (hfuel (r.room + 1) link).2 r a r' k h⟩
  exact (readWith_closed env closed_cuttable c fun d _ =>
    holdsAt_of_forall hop (fun n => ⟨advancing_take n, cuttable_take n⟩) d).2

end Codec

end ChainCodec
