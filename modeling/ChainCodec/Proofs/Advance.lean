import ChainCodec.Proofs.Reading.Closure

/-! # Reading only moves the cursor

    Whatever is read, and whether or not it succeeds, the reader afterwards
    stands in the same buffer under the same limit, with as many unions open
    as before; its cursor has not gone back and, if it was inside the buffer,
    has not left it.  For whole codecs this is `read_advancing`. -/

namespace ChainCodec

/-! ## Readers -/

/-- The second reader differs from the first by a cursor further on. -/
structure Reader.Advances (r r' : Reader) : Prop where
  data : r'.data = r.data
  depth : r'.depth = r.depth
  maxDepth : r'.maxDepth = r.maxDepth
  cursor_le : r.cursor ≤ r'.cursor
  cursor_le_size : r.cursor ≤ r.data.size → r'.cursor ≤ r.data.size

namespace Reader.Advances

theorem rfl (r : Reader) : r.Advances r := ⟨Eq.refl _, Eq.refl _, Eq.refl _, Nat.le_refl _, id⟩

theorem trans {r r' r'' : Reader} (h : r.Advances r') (h' : r'.Advances r'') : r.Advances r'' :=
  ⟨h'.data.trans h.data, h'.depth.trans h.depth, h'.maxDepth.trans h.maxDepth,
    Nat.le_trans h.cursor_le h'.cursor_le,
    fun hr => h.data ▸ h'.cursor_le_size (h.data.symm ▸ h.cursor_le_size hr)⟩

/-- Room for unions is left as before. -/
theorem room {r r' : Reader} (h : r.Advances r') : r'.room = r.room := by
  simp only [Reader.room, h.depth, h.maxDepth]

end Reader.Advances

/-! ## Actions -/

namespace Read

variable {α β : Type}

/-- The action leaves a reader that differs by a cursor further on. -/
def Advancing (x : Read α) : Prop := ∀ r : Reader, r.Advances (x r).2

theorem Advancing.of_eq {x : Read α} (hx : x.Advancing) {r r' : Reader} {result : Except Halt α}
    (h : x r = (result, r')) : r.Advances r' := by
  have := hx r
  rwa [h] at this

theorem advancing_pure (a : α) : Advancing (pure a) := fun r => .rfl r

theorem advancing_ofResult (x : Except Error α) : Advancing (ofResult x) := fun r => .rfl r

theorem Advancing.bind {x : Read α} {f : α → Read β} (hx : x.Advancing)
    (hf : ∀ a, (f a).Advancing) : Advancing (x >>= f) := by
  intro r
  simp only [Action.bind_apply]
  rcases h : x r with ⟨_ | a, r'⟩
  · exact hx.of_eq h
  · exact (hx.of_eq h).trans (hf a r')

theorem Advancing.within {x : Read α} (hx : x.Advancing) (c : Context) :
    Advancing (Read.within c x) := by
  intro r
  simp only [Read.within, Action.mapError]
  rcases h : x r with ⟨_ | a, r'⟩ <;> exact hx.of_eq h

/-- The union that was opened is closed again, after a failure as well. -/
theorem Advancing.nested {x : Read α} (hx : x.Advancing) : Advancing (Read.nested x) := by
  intro r
  by_cases h : r.maxDepth ≤ r.depth
  · simp only [Read.nested, Action.bind_apply, enter, h, if_true]
    exact .rfl r
  · have hin := hx { r with depth := r.depth + 1 }
    simp only [Read.nested, Action.bind_apply, enter, h, if_false, thenLeave]
    exact ⟨hin.data, by simp only [Reader.leave, hin.depth, Nat.add_sub_cancel], hin.maxDepth,
      hin.cursor_le, hin.cursor_le_size⟩

theorem Advancing.repeatFrom {f : Nat → Read α} (hf : ∀ i, (f i).Advancing) (start count : Nat) :
    Advancing (repeatFrom f start count) := by
  induction count generalizing start with
  | zero => exact advancing_pure []
  | succ count ih =>
    exact (hf start).bind fun a => (ih (start + 1)).bind fun as => advancing_pure (a :: as)

/-- A failed read takes no bytes. -/
theorem advancing_take (n : Nat) : Advancing (take n) := by
  intro r
  unfold take
  dsimp only
  split
  · rename_i hstop
    exact ⟨rfl, rfl, rfl, Nat.le_add_right _ _, fun _ => hstop⟩
  · split <;> exact .rfl r

theorem advancing_position : Advancing position := fun r => .rfl r

theorem advancing_since (start : Nat) : Advancing (since start) := fun r => .rfl r

theorem closed_advancing : Closed fun x => x.Advancing where
  ofResult _ := advancing_ofResult _
  take _ := advancing_take _
  position := advancing_position
  since := advancing_since
  bind := .bind
  within c hx := hx.within c
  nested := .nested

theorem advancing_byte : Advancing byte := closed_advancing.byte

theorem advancing_varint : Advancing varint := closed_advancing.varint

end Read

/-! ## Codecs -/

namespace Codec

open Read

variable {op : ReadOperation}

theorem readWith_advancing (h : ∀ link, (op link).Advancing) (c : Codec) :
    (readWith op c).Advancing :=
  -- No table is needed to tell what the codecs inside bring themselves.
  readWith_closed (fun _ => .empty) closed_advancing c
    fun d _ => holdsAt_of_forall h advancing_take d

theorem readCase_advancing (h : ∀ link, (op link).Advancing) (label : String) (tag : UInt32)
    (cases : List (UInt32 × Codec)) : (readCase op label tag cases).Advancing :=
  readCase_closed (fun _ => .empty) closed_advancing label tag cases
    fun _ _ d _ => holdsAt_of_forall h advancing_take d

theorem readFields_advancing (h : ∀ link, (op link).Advancing) (fields : List (String × Codec)) :
    (readFields op fields).Advancing :=
  readFields_closed (fun _ => .empty) closed_advancing fields
    fun _ _ d _ => holdsAt_of_forall h advancing_take d

theorem readOperation_advancing (env : Registries) (fuel : Nat) (link : OperationLink) :
    (readOperation env fuel link).Advancing :=
  readOperation_closed closed_advancing advancing_ofResult advancing_take env fuel link

/-- Whatever is read, only the cursor moves. -/
theorem read_advancing (env : Registries) (c : Codec) : (read env c).Advancing :=
  readWith_advancing (fun link r => readOperation_advancing env (r.room + 1) link r) c

end Codec

end ChainCodec
