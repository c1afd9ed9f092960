import ChainCodec.Proofs.Advance
import ChainCodec.Protocol
import Mathlib

/-! # The depth is balanced

    Every tagged union that a read opens it closes again, whether the read
    succeeds or fails, and wherever it fails.  Meanwhile there are never more
    unions open than the limit allows.

    What happens meanwhile does not show in the result.  `Traced` takes a run
    apart into the steps that it is made of, and lists the readers between
    them. -/

namespace ChainCodec

namespace Read

/-! ## Traces -/

/-- Run on a reader, the action goes through the readers of the trace, from the
    one that it is run on to the one that it leaves. -/
inductive Traced : {α : Type} → Read α → Reader → List Reader → Prop
  | ofResult {α : Type} (y : Except Error α) (r : Reader) : Traced (ofResult y) r [r]
  | state (r : Reader) : Traced Action.state r [r]
  | take (n : Nat) (r : Reader) : Traced (take n) r [r, (take n r).2]
  | enter (r : Reader) : Traced enter r [r, (enter r).2]
  | thenLeave {α : Type} {x : Read α} {r : Reader} {trace : List Reader} (h : Traced x r trace) :
      Traced (thenLeave x) r (trace ++ [(x r).2.leave])
  | within {α : Type} {x : Read α} {r : Reader} {trace : List Reader} (c : Context)
      (h : Traced x r trace) : Traced (Read.within c x) r trace
  /-- What follows is not run. -/
  | halt {α β : Type} {x : Read α} {f : α → Read β} {r r' : Reader} {e : Halt}
      {trace : List Reader} (h : Traced x r trace) (hx : x r = (.error e, r')) :
      Traced (x >>= f) r trace
  | go {α β : Type} {x : Read α} {f : α → Read β} {r r' : Reader} {a : α}
      {trace trace' : List Reader} (h : Traced x r trace) (hx : x r = (.ok a, r'))
      (h' : Traced (f a) r' trace') : Traced (x >>= f) r (trace ++ trace')

variable {α β : Type} {x : Read α} {r : Reader} {trace : List Reader}

/-- Every run has a trace. -/
def HasTraces (x : Read α) : Prop := ∀ r, ∃ trace, Traced x r trace

theorem HasTraces.bind {f : α → Read β} (hx : x.HasTraces) (hf : ∀ a, (f a).HasTraces) :
    HasTraces (x >>= f) := by
  intro r
  obtain ⟨trace, htrace⟩ := hx r
  rcases h : x r with ⟨e | a, r'⟩
  · exact ⟨trace, .halt htrace h⟩
  · obtain ⟨trace', htrace'⟩ := hf a r'
    exact ⟨trace ++ trace', .go htrace h htrace'⟩

theorem HasTraces.within (hx : x.HasTraces) (c : Context) : HasTraces (Read.within c x) := by
  intro r
  obtain ⟨trace, htrace⟩ := hx r
  exact ⟨trace, .within c htrace⟩

theorem HasTraces.nested (hx : x.HasTraces) : HasTraces (Read.nested x) := by
  have hleave : HasTraces (Read.thenLeave x) := by
    intro r
    obtain ⟨trace, htrace⟩ := hx r
    exact ⟨_, .thenLeave htrace⟩
  have henter : HasTraces Read.enter := fun r => ⟨_, .enter r⟩
  exact henter.bind fun _ => hleave

theorem hasTraces_ofResult (y : Except Error α) : HasTraces (ofResult y) := fun r =>
  ⟨_, .ofResult y r⟩

theorem hasTraces_take (n : Nat) : HasTraces (take n) := fun r => ⟨_, .take n r⟩

/-- An action may depend on the reader that it is run on. -/
theorem hasTraces_of_reader {x : Reader → Read α} (hx : ∀ r, (x r).HasTraces) :
    HasTraces fun r => x r r := by
  have hstate : HasTraces (Action.state : Read Reader) := fun r => ⟨_, .state r⟩
  have hbind := hstate.bind hx
  exact hbind

theorem closed_hasTraces : Closed fun x => x.HasTraces where
  ofResult _ := hasTraces_ofResult _
  take _ := hasTraces_take _
  position := hasTraces_of_reader (x := fun r => ofResult (.ok r.cursor))
    fun _ => hasTraces_ofResult _
  since start := hasTraces_of_reader (x := fun r => ofResult (.ok (r.since start)))
    fun _ => hasTraces_ofResult _
  bind := .bind
  within c hx := hx.within c
  nested := .nested

/-- A trace ends with the reader that the action leaves. -/
theorem Traced.getLast? (h : Traced x r trace) : trace.getLast? = some (x r).2 := by
  induction h with
  | ofResult y r | state r | take n r | enter r => rfl
  | thenLeave h ih => exact List.getLast?_concat
  | @within _ x r trace c h ih =>
    rw [ih]
    show _ = some (Action.mapError (Halt.within c) x r).2
    unfold Action.mapError
    rcases x r with ⟨_ | a, r'⟩ <;> rfl
  | halt h hx ih => rw [ih, Action.bind_error hx, hx]
  | go h hx h' ih ih' => rw [List.getLast?_append, ih', Action.bind_ok hx, Option.some_or]

theorem Traced.mem (h : Traced x r trace) : (x r).2 ∈ trace := List.mem_of_getLast? h.getLast?

end Read

/-! ## The limit -/

/-- No more unions are open than the limit allows. -/
def Reader.Bounded (limit : Nat) (r : Reader) : Prop := r.maxDepth = limit ∧ r.depth ≤ limit

theorem Reader.Bounded.of_advances {limit : Nat} {r r' : Reader} (h : r.Bounded limit)
    (hr : r.Advances r') : r'.Bounded limit :=
  ⟨hr.maxDepth.trans h.1, hr.depth ▸ h.2⟩

theorem Reader.Bounded.leave {limit : Nat} {r : Reader} (h : r.Bounded limit) :
    r.leave.Bounded limit :=
  ⟨h.1, Nat.le_trans (Nat.sub_le _ _) h.2⟩

namespace Read

/-- A union is opened only where there is room for it. -/
theorem bounded_enter {limit : Nat} {r : Reader} (h : r.Bounded limit) :
    (enter r).2.Bounded limit := by
  obtain ⟨hlimit, hdepth⟩ := h
  unfold enter
  by_cases hroom : r.maxDepth ≤ r.depth
  · rw [if_pos hroom]
    exact ⟨hlimit, hdepth⟩
  · rw [if_neg hroom]
    exact ⟨hlimit, by show r.depth + 1 ≤ limit; omega⟩

/-- A run that starts within the limit stays within it. -/
theorem Traced.bounded {α : Type} {x : Read α} {limit : Nat} {r : Reader} {trace : List Reader}
    (h : Traced x r trace) (hr : r.Bounded limit) : ∀ m ∈ trace, m.Bounded limit := by
  induction h with
  | ofResult y r | state r => exact List.forall_mem_singleton.2 hr
  | take n r =>
    have hafter := hr.of_advances (advancing_take n r)
    exact List.forall_mem_cons.2 ⟨hr, List.forall_mem_singleton.2 hafter⟩
  | enter r =>
    have hafter := bounded_enter hr
    exact List.forall_mem_cons.2 ⟨hr, List.forall_mem_singleton.2 hafter⟩
  | thenLeave h ih =>
    intro m hm
    rcases List.mem_append.1 hm with hm | hm
    · exact ih hr m hm
    · obtain rfl := List.mem_singleton.1 hm
      exact (ih hr _ h.mem).leave
  | within c h ih => exact ih hr
  | halt h hx ih => exact ih hr
  | go h hx h' ih ih' =>
    intro m hm
    -- What follows starts with the reader that the first action leaves.
    have hmem := h.mem
    rw [hx] at hmem
    rcases List.mem_append.1 hm with hm | hm
    · exact ih hr m hm
    · exact ih' (ih hr _ hmem) m hm

end Read

/-! ## Codecs -/

namespace Codec

open Read

theorem read_hasTraces (env : Registries) (c : Codec) : (read env c).HasTraces := by
  have hop (link : OperationLink) : HasTraces fun r => readOperation env (r.room + 1) link r :=
    hasTraces_of_reader fun r =>
      readOperation_closed closed_hasTraces hasTraces_ofResult hasTraces_take env _ link
  exact readWith_closed (fun _ => .empty) closed_hasTraces c
    fun d _ => holdsAt_of_forall hop hasTraces_take d

/-- The reader after reads with the given codecs, one after the other, whether
    or not they succeed. -/
def readAll (history : List (Registries × Codec)) (r : Reader) : Reader :=
  history.foldl (fun r reading => (read reading.1 reading.2 r).2) r

theorem readAll_advances (history : List (Registries × Codec)) (r : Reader) :
    r.Advances (readAll history r) := by
  induction history generalizing r with
  | nil => exact .rfl r
  | cons reading rest ih => exact (read_advancing reading.1 reading.2 r).trans (ih _)

/-- A read leaves as many unions open as it found, however it ends, and on the
    way there are never more than the limit allows.  So what reads did before
    does not matter to a later one, apart from where they left the cursor. -/
theorem depth_balanced (env : Registries) (c : Codec) {r : Reader} (h : r.depth ≤ r.maxDepth) :
    (read env c r).2.depth = r.depth ∧
    (∃ trace, Traced (read env c) r trace) ∧
    (∀ trace, Traced (read env c) r trace → ∀ m ∈ trace, m.depth ≤ r.maxDepth) ∧
    ∀ history env' d, read env' d (readAll history r) =
      read env' d { r with cursor := (readAll history r).cursor } := by
  refine ⟨?_, ?_, ?_, ?_⟩
  · exact (read_advancing env c r).depth
  · exact read_hasTraces env c r
  · intro trace htrace m hm
    exact (htrace.bounded ⟨rfl, h⟩ m hm).2
  · intro history env' d
    obtain ⟨hdata, hdepth, hlimit, _, _⟩ := readAll_advances history r
    rw [← hdata, ← hdepth, ← hlimit]

/-- The start of a proposal, up to the number of a transfer inside, and a
    transfer; only one union may be open. -/
def proposalThenTransfer : Reader :=
  Reader.withLimit 1 (16 :: List.replicate 14 0 ++ [1, 0] ++ List.replicate 22 0)

/-- The transfer of nothing. -/
def zeroTransfer : Value :=
  .array [.int 0, .object [
    ("fee", .object [("amount", .int 0), ("asset_id", .str "1.3.0")]),
    ("from", .str "1.2.0"),
    ("to", .str "1.2.0"),
    ("amount", .object [("amount", .int 0), ("asset_id", .str "1.3.0")]),
    ("extensions", .array [])]]

/-- The transfer inside the proposal is refused, since the proposal is open; the
    one after it is read, since the proposal is closed again. -/
theorem depth_balanced_proposalThenTransfer :
    (read .live (Protocol.operation {}) proposalThenTransfer).1 =
        .error (.error { Error.depthExceeded 1 with
          path := [.variant operationLabel 16, .field "proposed_ops", .element 0, .field "op"] }) ∧
      (read .live (Protocol.operation {}) proposalThenTransfer).2.depth = 0 ∧
      (read .live (Protocol.operation {})
        (readAll [(.live, Protocol.operation {})] proposalThenTransfer)).1 = .ok zeroTransfer := by
  have hlimit : proposalThenTransfer.depth ≤ proposalThenTransfer.maxDepth := by decide
  obtain ⟨hdepth, _, _, hlater⟩ := depth_balanced .live (Protocol.operation {}) hlimit
  refine ⟨?_, hdepth, ?_⟩
  · cbv
  · rw [hlater]
    cbv

end Codec

end ChainCodec
