import ChainCodec.Proofs.Sequence
import ChainCodec.Proofs.Writing.Closure

/-! # Writing only appends

    What an action writes does not depend on what was written before: at any
    writer it gives the result that it gives at the empty one, and puts the
    same bytes behind those that are there, even when it fails half-way.  For
    whole codecs this is `write_appending`.

    Hence `Write.run`, which starts at the empty writer, tells all about an
    action, and the bytes of a sequence of actions are the bytes of its
    steps. -/

namespace ChainCodec

namespace Writer

theorem ext {w w' : Writer} (h : w.bytes = w'.bytes) : w = w' := by
  obtain ⟨data⟩ := w
  obtain ⟨data'⟩ := w'
  exact congrArg Writer.mk (Array.toList_inj.1 h)

@[simp] theorem append_nil (w : Writer) : w.append [] = w := ext (by simp)

@[simp] theorem append_append (w : Writer) (as bs : Bytes) :
    (w.append as).append bs = w.append (as ++ bs) := ext (by simp)

end Writer

namespace Write

variable {α β : Type}

/-- The action does the same behind any bytes. -/
def Appending (x : Write α) : Prop :=
  ∀ w : Writer, x w = ((x .empty).1, w.append (x .empty).2.bytes)

theorem appending_pure (a : α) : Appending (pure a) := fun w => by simp

theorem appending_lift (x : Except Error α) : Appending (liftM x : Write α) := fun w => by
  change (x, w) = (x, w.append [])
  rw [Writer.append_nil]

theorem appending_bytes (bs : Bytes) : Appending (bytes bs) := fun w => by simp

/-- The second action appends to what the first one left, whatever this is. -/
theorem Appending.bind {x : Write α} {f : α → Write β} (hx : x.Appending)
    (hf : ∀ a, (f a).Appending) : Appending (x >>= f) := by
  intro w
  have hw := hx w
  simp only [Action.bind_apply]
  rcases he : x .empty with ⟨_ | a, w'⟩
  · rw [hw, he]
  · rw [hw, he]
    dsimp only
    -- The second action starts at different writers, but at both it only appends.
    rw [hf a (w.append w'.bytes), hf a w', Writer.append_append, Writer.bytes_append]

theorem Appending.within {x : Write α} (hx : x.Appending) (c : Context) :
    Appending (Write.within c x) := by
  intro w
  have hw := hx w
  simp only [Write.within, Action.mapError]
  rw [hw]
  rcases x .empty with ⟨_ | a, w'⟩ <;> rfl

theorem Appending.traverseFrom {f : Nat → β → Write α} (hf : ∀ i b, (f i b).Appending)
    (start : Nat) (items : List β) : Appending (traverseFrom f start items) := by
  induction items generalizing start with
  | nil => exact appending_pure []
  | cons item items ih =>
    exact (hf start item).bind fun a => (ih (start + 1)).bind fun as => appending_pure (a :: as)

/-- All codecs are put together from actions that append. -/
theorem closed_appending : Closed fun x => x.Appending where
  checked _ := appending_lift _
  bytes := appending_bytes
  bind := .bind
  within c hx := hx.within c

/-! ## Running sequences -/

theorem run_pure (a : α) : run (pure a) = .ok [] := rfl

theorem run_bytes (bs : Bytes) : run (bytes bs) = .ok bs := by
  simp [run]

theorem run_fail (cause : Cause) : run (fail cause : Write α) = .error (.validation cause) := rfl

theorem run_lift_bind (x : Except Error α) (f : α → Write β) :
    run ((liftM x : Write α) >>= f) = x >>= fun a => run (f a) := by
  cases x <;> rfl

theorem run_within (c : Context) (x : Write α) : run (within c x) = Check.within c (run x) := by
  simp only [run, within, Action.mapError, Check.within]
  rcases x .empty with ⟨_ | a, w⟩ <;> rfl

theorem run_bind_pure (x : Write α) (f : α → β) : run (x >>= fun a => pure (f a)) = run x := by
  simp only [run, Action.bind_apply]
  rcases x .empty with ⟨_ | a, w⟩ <;> rfl

/-- The second action writes behind what the first one wrote. -/
theorem run_bind {x : Write α} {f : α → Write β} {second : Except Error Bytes}
    (hf : ∀ a, (f a).Appending) (hsecond : ∀ a, run (f a) = second) :
    run (x >>= f) = (do
      let as ← run x
      let bs ← second
      pure (as ++ bs)) := by
  -- At a failure the bytes that were written are lost with the rest.
  rcases hx : x .empty with ⟨e | a, w⟩
  · have hrun : run x = .error e := by simp only [run, hx]
    rw [hrun, run, Action.bind_error hx]
    rfl
  · have hrun : run x = .ok w.bytes := by simp only [run, hx]
    rw [hrun, ← hsecond a, run, Action.bind_ok hx, hf a w, run]
    rcases f a .empty with ⟨e | b, w'⟩
    · rfl
    · exact congrArg Except.ok (Writer.bytes_append _ _)

/-- The bytes of a sequence are those of its steps, one behind the other. -/
theorem run_traverseFrom {f : Nat → β → Write α} (hf : ∀ i b, (f i b).Appending)
    (start : Nat) (items : List β) :
    run (traverseFrom f start items) = (do
      let parts ← ChainCodec.traverseFrom (fun i item => run (f i item)) start items
      pure parts.flatten) := by
  induction items generalizing start with
  | nil => rfl
  | cons item items ih =>
    -- The rest appends, whatever the first step results in.
    have hrest : ∀ a, Appending (do
        let as ← traverseFrom f (start + 1) items
        pure (a :: as)) := fun a =>
      (Appending.traverseFrom hf _ _).bind fun _ => appending_pure _
    simp only [ChainCodec.traverseFrom]
    rw [run_bind hrest fun a => run_bind_pure _ _, ih]
    cases run (f start item) with
    | error e => rfl
    | ok as =>
      cases ChainCodec.traverseFrom (fun i item => run (f i item)) (start + 1) items with
      | error e => rfl
      | ok parts => rfl

end Write

/-! ## Codecs -/

namespace Codec

open Write

variable {op : WriteOperation}

theorem writeWith_appending (h : ∀ link v, (op link v).Appending) (c : Codec) (v : Value) :
    (writeWith op c v).Appending :=
  -- No table is needed to tell which operation codecs are inside.
  writeWith_closed (fun _ => .empty) closed_appending c (fun link _ => h link) v

theorem writeFields_appending (h : ∀ link v, (op link v).Appending)
    (fields : List (String × Codec)) (record : Record Value) :
    (writeFields op fields record).Appending :=
  writeFields_closed (fun _ => .empty) closed_appending fields (fun _ _ link _ => h link) record

theorem writeOperation_appending (env : Registries) (fuel : Nat) (link : OperationLink)
    (v : Value) : (writeOperation env fuel link v).Appending := by
  induction fuel generalizing link v with
  | zero => exact appending_lift (.error (.ofRegistry .notInstalled))
  | succ fuel ih => exact (appending_lift _).bind fun union => writeWith_appending ih union v

/-- Whatever is written, it does not matter what stands before it. -/
theorem write_appending (env : Registries) (c : Codec) (raw : Value) :
    (write env c raw).Appending :=
  writeWith_appending (fun link v => writeOperation_appending env (v.arrayDepth + 1) link v) c raw

end Codec

end ChainCodec
