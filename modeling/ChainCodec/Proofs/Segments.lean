import ChainCodec.Codec.Read

/-! # What an action reads

    A successful action takes a segment of the buffer, from where the cursor
    was to where it is then.  `Sound` says that every segment that an action
    takes belongs to a grammar, `Yields` that it takes a given segment and
    gives a given result, unless there is too little room for the unions that
    have to be opened.

    Both are proved of an action from its parts, in the order in which it
    runs them. -/

namespace ChainCodec

/-! ## Segments -/

namespace Reader

variable {r : Reader} {as bs : Bytes}

/-- The bytes stand behind the cursor, which is inside the buffer. -/
def Before (r : Reader) (bs : Bytes) : Prop :=
  ∃ p s, r.data.toList = p ++ bs ++ s ∧ p.length = r.cursor

/-- The reader `n` bytes further on. -/
def advance (n : Nat) (r : Reader) : Reader := { r with cursor := r.cursor + n }

@[simp] theorem advance_zero (r : Reader) : r.advance 0 = r := rfl

@[simp] theorem room_advance (n : Nat) (r : Reader) : (r.advance n).room = r.room := rfl

theorem advance_advance (m n : Nat) (r : Reader) :
    (r.advance m).advance n = r.advance (m + n) := by
  simp only [advance, Nat.add_assoc]

theorem Before.left (h : r.Before (as ++ bs)) : r.Before as := by
  obtain ⟨p, s, hdata, hp⟩ := h
  exact ⟨p, bs ++ s, by simp [hdata], hp⟩

theorem Before.right (h : r.Before (as ++ bs)) : (r.advance as.length).Before bs := by
  obtain ⟨p, s, hdata, hp⟩ := h
  exact ⟨p ++ as, s, by simp [advance, hdata], by simp [advance, hp]⟩

theorem Before.append (has : r.Before as) (hbs : (r.advance as.length).Before bs) :
    r.Before (as ++ bs) := by
  obtain ⟨p, s, hdata, hp⟩ := has
  obtain ⟨p', s', hdata', hp'⟩ := hbs
  -- The second segment starts where the first one ends.
  have hsplit : (p ++ as) ++ s = p' ++ (bs ++ s') := by
    rw [← hdata, ← List.append_assoc]
    exact hdata'
  have hlength : (p ++ as).length = p'.length := by
    rw [hp', List.length_append, hp]
    rfl
  obtain ⟨_, rfl⟩ := List.append_inj hsplit hlength
  exact ⟨p, s', by rw [hdata]; simp, hp⟩

theorem Before.after (h : r.Before bs) : (r.advance bs.length).Before [] := by
  rw [← List.append_nil bs] at h
  exact h.right

theorem slice_of_before (h : r.Before bs) : r.slice r.cursor (r.cursor + bs.length) = bs := by
  obtain ⟨p, s, hdata, hp⟩ := h
  rw [slice, Array.toList_extract, hdata, ← hp, List.extract_eq_take_drop, List.append_assoc,
    List.drop_left, Nat.add_sub_cancel_left, List.take_left]

theorem since_of_before (h : r.Before bs) : (r.advance bs.length).since r.cursor = bs := by
  have hmin : min r.cursor (r.advance bs.length).cursor = r.cursor :=
    Nat.min_eq_left (Nat.le_add_right _ _)
  rw [since, hmin]
  exact slice_of_before h

theorem before_nil (h : r.cursor ≤ r.data.size) : r.Before [] := by
  have hlength : (r.data.toList.take r.cursor).length = r.cursor := by
    rw [List.length_take, Array.length_toList]
    exact Nat.min_eq_left h
  refine ⟨r.data.toList.take r.cursor, r.data.toList.drop r.cursor, ?_, hlength⟩
  rw [List.append_nil, List.take_append_drop]

theorem Before.cursor_le (h : r.Before bs) : r.cursor ≤ r.data.size := by
  obtain ⟨p, s, hdata, hp⟩ := h
  rw [← Array.length_toList, hdata, ← hp]
  simp

theorem rest_eq_drop (r : Reader) : r.rest = r.data.toList.drop r.cursor := by
  have hlength : (r.data.toList.drop r.cursor).length ≤ r.data.size - r.cursor := by
    simp
  rw [rest, slice, Array.toList_extract, List.extract_eq_take_drop]
  exact List.take_of_length_le hlength

/-- What stands behind the cursor are the first of the bytes that are left. -/
theorem before_iff_isPrefix (h : r.cursor ≤ r.data.size) : r.Before bs ↔ bs <+: r.rest := by
  rw [rest_eq_drop]
  constructor
  · rintro ⟨p, s, hdata, hp⟩
    rw [hdata, List.append_assoc, ← hp, List.drop_left]
    exact List.prefix_append bs s
  · rintro ⟨s, hs⟩
    have hlength : (r.data.toList.take r.cursor).length = r.cursor := by
      rw [List.length_take, Array.length_toList]
      exact Nat.min_eq_left h
    refine ⟨r.data.toList.take r.cursor, s, ?_, hlength⟩
    rw [List.append_assoc, hs, List.take_append_drop]

theorem Before.length_le_remaining (h : r.Before bs) : bs.length ≤ r.remaining := by
  obtain ⟨p, s, hdata, hp⟩ := h
  have hsize := congrArg List.length hdata
  simp only [Array.length_toList, List.length_append] at hsize
  rw [remaining, hsize, hp]
  omega

theorem before_withLimit (limit : Nat) (bs : Bytes) : (withLimit limit bs).Before bs :=
  ⟨[], [], by simp [withLimit], rfl⟩

end Reader

namespace Read

open Reader

variable {α β : Type} {k : Nat} {x : Read α} {f : α → Read β}

theorem take_of_before {r : Reader} {bs : Bytes} (h : r.Before bs) :
    take bs.length r = (.ok bs, r.advance bs.length) := by
  have hslice := slice_of_before h
  obtain ⟨p, s, hdata, hp⟩ := h
  -- The segment ends inside the buffer, so there is enough to take.
  have hsize : r.cursor + bs.length ≤ r.data.size := by
    rw [← Array.length_toList, hdata, ← hp]
    simp
  simp only [take, if_pos hsize, hslice]
  rfl

theorem before_of_take {r r' : Reader} {n : Nat} {bs : Bytes} (h : take n r = (.ok bs, r')) :
    r.Before bs ∧ bs.length = n ∧ r' = r.advance n := by
  simp only [take] at h
  split at h
  · rename_i hsize
    cases h
    rw [← Array.length_toList] at hsize
    -- The buffer is what lies before the cursor, what was taken, and the rest.
    have hslice : r.slice r.cursor (r.cursor + n) = (r.data.toList.drop r.cursor).take n := by
      rw [slice, Array.toList_extract, List.extract_eq_take_drop, Nat.add_sub_cancel_left]
    rw [hslice]
    refine ⟨⟨r.data.toList.take r.cursor, (r.data.toList.drop r.cursor).drop n, ?_, ?_⟩, ?_, rfl⟩
    · rw [List.append_assoc, List.take_append_drop, List.take_append_drop]
    · rw [List.length_take]
      omega
    · rw [List.length_take, List.length_drop]
      omega
  · split at h <;> cases h

/-! ## Only segments of a grammar -/

/-- With room for `k` more unions, whatever the action takes and gives belongs
    to the grammar. -/
def Sound (k : Nat) (G : Bytes → α → Prop) (x : Read α) : Prop :=
  ∀ r a r', r.room = k → r.Before [] → x r = (.ok a, r') →
    ∃ bs, r.Before bs ∧ r' = r.advance bs.length ∧ G bs a

theorem Sound.imp {G G' : Bytes → α → Prop} (h : Sound k G x) (himp : ∀ bs a, G bs a → G' bs a) :
    Sound k G' x := by
  intro r a r' hroom hr hx
  obtain ⟨bs, hbs, hr', hG⟩ := h r a r' hroom hr hx
  exact ⟨bs, hbs, hr', himp bs a hG⟩

theorem sound_pure (a : α) : Sound k (fun bs b => bs = [] ∧ b = a) (pure a) := by
  intro r b r' _ hr h
  cases h
  exact ⟨[], hr, rfl, rfl, rfl⟩

theorem sound_fail {G : Bytes → α → Prop} (e : Error) : Sound k G (fail e) := by
  intro r a r' _ _ h
  cases h

theorem sound_ofResult (y : Except Error α) :
    Sound k (fun bs a => bs = [] ∧ y = .ok a) (ofResult y) := by
  intro r a r' _ hr h
  obtain ⟨hy, rfl⟩ := Prod.mk.inj h
  cases y with
  | error e => cases hy
  | ok b =>
    cases hy
    exact ⟨[], hr, rfl, rfl, rfl⟩

theorem Sound.bind {G : Bytes → α → Prop} {H : α → Bytes → β → Prop} (hx : Sound k G x)
    (hf : ∀ a, Sound k (H a) (f a)) :
    Sound k (fun bs b => ∃ a as cs, G as a ∧ H a cs b ∧ bs = as ++ cs) (x >>= f) := by
  intro r b r' hroom hr h
  rcases hxr : x r with ⟨_ | a, r₁⟩
  · rw [Action.bind_error hxr] at h
    cases h
  · rw [Action.bind_ok hxr] at h
    -- The second segment starts where the first one ended.
    obtain ⟨as, has, rfl, hG⟩ := hx r a r₁ hroom hr hxr
    obtain ⟨cs, hcs, rfl, hH⟩ := hf a (r.advance as.length) b r' hroom has.after h
    refine ⟨as ++ cs, has.append hcs, ?_, a, as, cs, hG, hH, rfl⟩
    rw [advance_advance, List.length_append]

/-- A result that is only wrapped up takes no bytes of its own. -/
theorem Sound.map {G : Bytes → α → Prop} {H : Bytes → β → Prop} {g : α → β} (hx : Sound k G x)
    (himp : ∀ bs a, G bs a → H bs (g a)) : Sound k H (x >>= fun a => pure (g a)) := by
  refine (hx.bind fun a => sound_pure (g a)).imp ?_
  intro _ b h
  rcases h with ⟨a, bs, _, hG, ⟨rfl, rfl⟩, rfl⟩
  rw [List.append_nil]
  exact himp bs a hG

theorem Sound.within {G : Bytes → α → Prop} (h : Sound k G x) (c : Context) :
    Sound k G (Read.within c x) := by
  intro r a r' hroom hr hx
  refine h r a r' hroom hr ?_
  simp only [Read.within, Action.mapError] at hx
  rcases hxr : x r with ⟨_ | b, r₁⟩
  · rw [hxr] at hx
    cases hx
  · rwa [hxr] at hx

/-- The bytes between two positions are those that were taken there. -/
theorem Sound.measured {G : Bytes → α → Prop} {g : Bytes → α → Read β}
    {H : Bytes → α → Bytes → β → Prop} (hx : Sound k G x)
    (hg : ∀ as a, Sound k (H as a) (g as a)) :
    Sound k (fun bs b => ∃ a as cs, G as a ∧ H as a cs b ∧ bs = as ++ cs) (do
      let start ← position
      let a ← x
      let as ← since start
      g as a) := by
  intro r b r' hroom hr h
  rw [Action.bind_ok (show position r = (.ok r.cursor, r) from rfl)] at h
  rcases hxr : x r with ⟨_ | a, r₁⟩
  · rw [Action.bind_error hxr] at h
    cases h
  · rw [Action.bind_ok hxr] at h
    obtain ⟨as, has, rfl, hG⟩ := hx r a r₁ hroom hr hxr
    have hsince : since r.cursor (r.advance as.length) = (.ok as, r.advance as.length) := by
      rw [since, since_of_before has]
    rw [Action.bind_ok hsince] at h
    obtain ⟨cs, hcs, rfl, hH⟩ := hg as a (r.advance as.length) b r' hroom has.after h
    refine ⟨as ++ cs, has.append hcs, ?_, a, as, cs, hG, hH, rfl⟩
    rw [advance_advance, List.length_append]

/-- An open union takes up room of its own. -/
theorem Sound.nested {G : Bytes → α → Prop} (h : ∀ j, k = j + 1 → Sound j G x) :
    Sound k G (Read.nested x) := by
  intro r a r' hroom hr hx
  -- At the limit the union is not opened at all.
  by_cases hdepth : r.maxDepth ≤ r.depth
  · simp only [Read.nested, Action.bind_apply, enter, hdepth, if_true] at hx
    cases hx
  · let inner : Reader := { r with depth := r.depth + 1 }
    have hopen : k = inner.room + 1 := by
      simp only [inner, Reader.room] at hroom ⊢
      omega
    simp only [Read.nested, Action.bind_apply, enter, hdepth, if_false, thenLeave] at hx
    rcases hin : x inner with ⟨_ | b, r₁⟩
    · rw [hin] at hx
      cases hx
    · rw [hin] at hx
      cases hx
      obtain ⟨bs, hbs, rfl, hG⟩ := h _ hopen inner a r₁ rfl hr hin
      exact ⟨bs, hbs, rfl, hG⟩

/-- Repeated actions take one segment after the other. -/
theorem Sound.repeatFrom {G : Bytes → α → Prop} {g : Nat → Read α} (h : ∀ i, Sound k G (g i))
    (start count : Nat) :
    Sound k (fun bs as => ∃ parts : List (Bytes × α), parts.length = count ∧
      (∀ e ∈ parts, G e.1 e.2) ∧ bs = parts.flatMap Prod.fst ∧ as = parts.map Prod.snd)
      (repeatFrom g start count) := by
  induction count generalizing start with
  | zero =>
    refine (sound_pure []).imp ?_
    intro _ _ h
    rcases h with ⟨rfl, rfl⟩
    exact ⟨[], rfl, by simp, rfl, rfl⟩
  | succ count ih =>
    refine ((h start).bind fun a => (ih (start + 1)).bind fun as => sound_pure (a :: as)).imp ?_
    intro _ _ h
    rcases h with ⟨a, bs, _, hG, ⟨_, _, _, ⟨parts, rfl, hparts, rfl, rfl⟩, ⟨rfl, rfl⟩, rfl⟩, rfl⟩
    refine ⟨(bs, a) :: parts, rfl, ?_, by simp, rfl⟩
    intro e he
    rcases List.mem_cons.1 he with rfl | he
    · exact hG
    · exact hparts e he

/-! ## Every segment of a grammar -/

/-- The action stops because too many unions would be open. -/
def Exceeds (x : Read α) (r : Reader) : Prop :=
  ∃ e r', x r = (.error (.error e), r') ∧ e.kind = .depthExceed

/-- The action takes the bytes and gives the result where there is room for
    `k` more unions; with less room, it may stop for that reason. -/
def Yields (k : Nat) (x : Read α) (bs : Bytes) (a : α) : Prop :=
  ∀ r, r.Before bs → x r = (.ok a, r.advance bs.length) ∨ r.room < k ∧ Exceeds x r

theorem yields_pure (a : α) : Yields k (pure a) [] a := fun _ _ => .inl rfl

theorem yields_ofResult {y : Except Error α} {a : α} (h : y = .ok a) :
    Yields k (ofResult y) [] a := by
  intro r _
  rw [h]
  exact .inl rfl

theorem yields_take {bs : Bytes} {n : Nat} (h : bs.length = n) : Yields k (take n) bs bs := by
  intro r hr
  rw [← h]
  exact .inl (take_of_before hr)

theorem exceeds_bind {r : Reader} (h : Exceeds x r) (f : α → Read β) : Exceeds (x >>= f) r := by
  obtain ⟨e, r', hx, hkind⟩ := h
  exact ⟨e, r', Action.bind_error hx f, hkind⟩

theorem exceeds_of_bind {r r' : Reader} {a : α} (hx : x r = (.ok a, r'))
    (h : Exceeds (f a) r') : Exceeds (x >>= f) r := by
  obtain ⟨e, r'', hf, hkind⟩ := h
  exact ⟨e, r'', by rw [Action.bind_ok hx, hf], hkind⟩

/-- A context changes the path of an error and not its kind. -/
theorem exceeds_within {r : Reader} (h : Exceeds x r) (c : Context) :
    Exceeds (Read.within c x) r := by
  obtain ⟨e, r', hx, hkind⟩ := h
  refine ⟨e.within c, r', ?_, ?_⟩
  · simp only [Read.within, Action.mapError, hx, Halt.within]
  · simp [Error.within, hkind]

theorem exceeds_nested_of_le {r : Reader} (h : r.maxDepth ≤ r.depth) (x : Read α) :
    Exceeds (Read.nested x) r := by
  refine ⟨.depthExceeded r.maxDepth, r, ?_, rfl⟩
  simp only [Read.nested, Action.bind_apply, enter, h, if_true]

theorem exceeds_nested {r : Reader} (hopen : ¬ r.maxDepth ≤ r.depth)
    (h : Exceeds x { r with depth := r.depth + 1 }) : Exceeds (Read.nested x) r := by
  obtain ⟨e, r', hx, hkind⟩ := h
  refine ⟨e, r'.leave, ?_, hkind⟩
  simp only [Read.nested, Action.bind_apply, enter, hopen, if_false, thenLeave, hx]

theorem Yields.bind {as bs : Bytes} {a : α} {b : β} (hx : Yields k x as a)
    (hf : Yields k (f a) bs b) : Yields k (x >>= f) (as ++ bs) b := by
  intro r hr
  -- Either action may stop for want of room, and then so does the whole.
  rcases hx r hr.left with hxr | ⟨hroom, hexceeds⟩
  · rcases hf _ hr.right with hfr | ⟨hroom, hexceeds⟩
    · left
      rw [Action.bind_ok hxr, hfr, advance_advance, List.length_append]
    · exact .inr ⟨hroom, exceeds_of_bind hxr hexceeds⟩
  · exact .inr ⟨hroom, exceeds_bind hexceeds f⟩

/-- What follows may take no further bytes. -/
theorem Yields.bind_nil {bs : Bytes} {a : α} {b : β} (hx : Yields k x bs a)
    (hf : Yields k (f a) [] b) : Yields k (x >>= f) bs b := by
  rw [← List.append_nil bs]
  exact hx.bind hf

theorem Yields.within {bs : Bytes} {a : α} (h : Yields k x bs a) (c : Context) :
    Yields k (Read.within c x) bs a := by
  intro r hr
  rcases h r hr with hx | ⟨hroom, hexceeds⟩
  · left
    simp only [Read.within, Action.mapError, hx]
  · exact .inr ⟨hroom, exceeds_within hexceeds c⟩

theorem Yields.measured {g : Bytes → α → Read β} {as bs : Bytes} {a : α} {b : β}
    (hx : Yields k x as a) (hg : Yields k (g as a) bs b) :
    Yields k (do
      let start ← position
      let a ← x
      let as ← since start
      g as a) (as ++ bs) b := by
  intro r hr
  have hposition : position r = (.ok r.cursor, r) := rfl
  rcases hx r hr.left with hxr | ⟨hroom, hexceeds⟩
  · have hsince : since r.cursor (r.advance as.length) = (.ok as, r.advance as.length) := by
      rw [since, since_of_before hr.left]
    rcases hg _ hr.right with hgr | ⟨hroom, hexceeds⟩
    · left
      rw [Action.bind_ok hposition, Action.bind_ok hxr, Action.bind_ok hsince, hgr,
        advance_advance, List.length_append]
    · refine .inr ⟨hroom, exceeds_of_bind hposition (exceeds_of_bind hxr ?_)⟩
      exact exceeds_of_bind hsince hexceeds
  · exact .inr ⟨hroom, exceeds_of_bind hposition (exceeds_bind hexceeds _)⟩

theorem Yields.nested {bs : Bytes} {a : α} (h : Yields k x bs a) :
    Yields (k + 1) (Read.nested x) bs a := by
  intro r hr
  by_cases hdepth : r.maxDepth ≤ r.depth
  · refine .inr ⟨?_, exceeds_nested_of_le hdepth x⟩
    unfold Reader.room
    omega
  · -- Inside, there is room for one union less.
    have hroom : Reader.room { r with depth := r.depth + 1 } + 1 = r.room := by
      simp only [Reader.room]
      omega
    rcases h { r with depth := r.depth + 1 } hr with hx | ⟨hlt, hexceeds⟩
    · left
      simp only [Read.nested, Action.bind_apply, enter, hdepth, if_false, thenLeave, hx]
      rfl
    · exact .inr ⟨by omega, exceeds_nested hdepth hexceeds⟩

theorem Yields.repeatFrom {γ : Type} {g : Nat → Read α} {parts : List γ} {bytes : γ → Bytes}
    {result : γ → α} (h : ∀ e ∈ parts, ∀ i, Yields k (g i) (bytes e) (result e)) (start : Nat) :
    Yields k (repeatFrom g start parts.length) (parts.flatMap bytes) (parts.map result) := by
  induction parts generalizing start with
  | nil => exact yields_pure []
  | cons e parts ih =>
    refine (h e (by simp) start).bind ?_
    exact (ih (fun e' he' => h e' (by simp [he'])) (start + 1)).bind_nil (yields_pure _)

/-! ## All segments of a grammar and no others -/

/-- If an action opens no unions and is sound and complete for a grammar, it
    reads the first of the bytes that are left, if they belong to it. -/
theorem eq_ok_iff {G : Bytes → α → Prop} {r r' : Reader} {a : α} (hsound : ∀ k, Sound k G x)
    (hyields : ∀ bs a, G bs a → Yields 0 x bs a) (h : r.cursor ≤ r.data.size) :
    x r = (.ok a, r') ↔ ∃ bs, bs <+: r.rest ∧ G bs a ∧ r' = r.advance bs.length := by
  constructor
  · intro hx
    obtain ⟨bs, hbs, hr', hG⟩ := hsound r.room r a r' rfl (before_nil h) hx
    exact ⟨bs, (before_iff_isPrefix h).1 hbs, hG, hr'⟩
  · rintro ⟨bs, hbs, hG, rfl⟩
    rcases hyields bs a hG r ((before_iff_isPrefix h).2 hbs) with hx | ⟨hroom, -⟩
    · exact hx
    · exact absurd hroom (Nat.not_lt_zero _)

end Read

end ChainCodec
