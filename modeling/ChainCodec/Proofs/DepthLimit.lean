import ChainCodec.Proofs.Children
import ChainCodec.Proofs.Reading.Soundness
import ChainCodec.Proofs.Unfolding.Read
import ChainCodec.Protocol
import Mathlib

/-! # The depth limit

    The limit on open unions decides whether a read may go on, and nothing
    else.  A read that does not run into it does the same under every larger
    one: `read_rising`.  What was read under a limit has no more unions inside
    one another than it allows: `Spells.unionDepth_le`.

    A table of operations may lead back to itself.  Each way through it opens a
    union, so that the limit also bounds how often it is unfolded:
    `readWith_unfoldOperation`. -/

namespace ChainCodec

/-- The same reader under another limit. -/
def Reader.limited (limit : Nat) (r : Reader) : Reader := { r with maxDepth := limit }

namespace Read

variable {α β : Type} {x : Read α} {f : α → Read β} {r : Reader}

/-- Unless it is stopped by the limit, the action does the same under a larger
    one. -/
def Rising (x : Read α) : Prop :=
  ∀ r limit, r.maxDepth ≤ limit → ¬ Exceeds x r →
    x (r.limited limit) = ((x r).1, (x r).2.limited limit)

/-! ## Actions -/

theorem rising_ofResult (y : Except Error α) : Rising (ofResult y) := fun _ _ _ _ => rfl

theorem rising_take (n : Nat) : Rising (take n) := by
  intro r limit _ _
  have hcursor : (r.limited limit).cursor = r.cursor := rfl
  have hdata : (r.limited limit).data = r.data := rfl
  unfold take
  simp only [hcursor, hdata]
  split
  · rfl
  · split <;> rfl

theorem Rising.bind (hx : x.Rising) (hadvancing : x.Advancing) (hf : ∀ a, (f a).Rising) :
    Rising (x >>= f) := by
  intro r limit hlimit hexceeds
  have hfirst := hx r limit hlimit fun h => hexceeds (exceeds_bind h f)
  rcases hxr : x r with ⟨e | a, r'⟩
  · rw [hxr] at hfirst
    rw [Action.bind_error hxr, Action.bind_error hfirst]
  · rw [hxr] at hfirst
    -- The second action starts under the same limit as the first.
    have hmoved := hadvancing.of_eq hxr
    have hlimit' : r'.maxDepth ≤ limit := hmoved.maxDepth ▸ hlimit
    have hsecond := hf a r' limit hlimit' fun h => hexceeds (exceeds_of_bind hxr h)
    rw [Action.bind_ok hxr, Action.bind_ok hfirst, hsecond]

theorem Rising.within (hx : x.Rising) (c : Context) : Rising (Read.within c x) := by
  intro r limit hlimit hexceeds
  have hsame := hx r limit hlimit fun h => hexceeds (exceeds_within h c)
  simp only [Read.within, Action.mapError, hsame]
  rcases x r with ⟨_ | _, _⟩ <;> rfl

theorem Rising.nested (hx : x.Rising) : Rising (Read.nested x) := by
  intro r limit hlimit hexceeds
  by_cases hdepth : r.maxDepth ≤ r.depth
  · exact absurd (exceeds_nested_of_le hdepth x) hexceeds
  · have hdepth' : ¬ (r.limited limit).maxDepth ≤ (r.limited limit).depth :=
      fun h => hdepth (Nat.le_trans hlimit h)
    have hinside := hx { r with depth := r.depth + 1 } limit hlimit
      fun h => hexceeds (exceeds_nested hdepth h)
    simp only [Read.nested, Action.bind_apply, enter, hdepth, hdepth', if_false, thenLeave]
    exact congrArg (fun result => (result.1, result.2.leave)) hinside

theorem closed_rising : Closed fun x => x.Advancing ∧ x.Rising where
  ofResult _ := ⟨advancing_ofResult _, rising_ofResult _⟩
  take _ := ⟨advancing_take _, rising_take _⟩
  position := ⟨advancing_position, fun _ _ _ _ => rfl⟩
  since start := ⟨advancing_since start, fun _ _ _ _ => rfl⟩
  bind hx hf := ⟨hx.1.bind fun a => (hf a).1, hx.2.bind hx.1 fun a => (hf a).2⟩
  within c hx := ⟨hx.1.within c, hx.2.within c⟩
  nested hx := ⟨hx.1.nested, hx.2.nested⟩

end Read

namespace Codec

open Read

variable {env : Registries} {c : Codec} {k : Nat} {bs : Bytes} {v : Value}

/-! ## Larger limits -/

theorem readOperation_rising (env : Registries) (link : OperationLink) :
    Rising fun r => readOperation env (r.room + 1) link r := by
  have hfuel (fuel : Nat) :=
    readOperation_closed closed_rising (fun y => ⟨advancing_ofResult y, rising_ofResult y⟩)
      (fun n => ⟨advancing_take n, rising_take n⟩) env fuel link
  intro r limit hlimit hexceeds
  -- With the fuel for the larger limit, the smaller one is read the same.
  have hroom : r.room ≤ (r.limited limit).room := Nat.sub_le_sub_right hlimit r.depth
  have hsame : readOperation env ((r.limited limit).room + 1) link r =
      readOperation env (r.room + 1) link r :=
    readOperation_congr env link r (by omega) (by omega)
  have hexceeds' : ¬ Exceeds (readOperation env ((r.limited limit).room + 1) link) r := by
    unfold Exceeds at hexceeds ⊢
    rwa [hsame]
  have hrising := (hfuel ((r.limited limit).room + 1)).2 r limit hlimit hexceeds'
  rwa [hsame] at hrising

/-- A codec that is not stopped by the limit reads the same under a larger one. -/
theorem read_rising (env : Registries) (c : Codec) : (read env c).Rising := by
  have hop (link : OperationLink) : Advancing (fun r => readOperation env (r.room + 1) link r) ∧
      Rising fun r => readOperation env (r.room + 1) link r :=
    ⟨fun r => readOperation_advancing env (r.room + 1) link r, readOperation_rising env link⟩
  exact (readWith_closed env closed_rising c fun d _ =>
    holdsAt_of_forall hop (fun n => ⟨advancing_take n, rising_take n⟩) d).2

/-! ## The depth of what was read -/

/-- No more unions lie inside one another than may be open. -/
theorem Spells.unionDepth_le (h : Spells env k c bs v) : unionDepth env c v ≤ k := by
  induction c, v using children_induction env generalizing k bs with
  | h c v ih =>
    obtain ⟨j, parts, rfl, hdivides⟩ := h.divides
    have hdepths : ((children env c v).map fun p => unionDepth env p.1 p.2).foldr max 0 ≤ j := by
      refine List.max_le_of_forall_le _ _ fun n hn => ?_
      obtain ⟨p, hp, rfl⟩ := List.mem_map.1 hn
      obtain ⟨part, hpart, rfl⟩ := List.mem_map.1 (hdivides.children ▸ hp)
      exact ih part.1 hp (hdivides.spells part hpart)
    rw [unionDepth_eq]
    exact Nat.add_le_add_left hdepths c.opens

/-! ## Unfolding the table -/

/-- The table of operations is unfolded so often, and then something else is
    done. -/
def unfoldOperation (env : Registries) (otherwise : ReadOperation) : Nat → ReadOperation
  | 0 => otherwise
  | n + 1 => fun link => do
      let union ← ofResult (env.unionOf link.registry)
      readWith (unfoldOperation env otherwise n) union

/-- What would be done behind all unions that may be opened is never done. -/
theorem readOperation_eq_unfold (env : Registries) (otherwise : ReadOperation) {fuel n : Nat}
    (link : OperationLink) (r : Reader) (hfuel : r.room < fuel) (hn : r.room < n) :
    readOperation env fuel link r = unfoldOperation env otherwise n link r := by
  induction n generalizing fuel link r with
  | zero => exact absurd hn (Nat.not_lt_zero _)
  | succ n ih =>
    obtain ⟨fuel, rfl⟩ : ∃ m, fuel = m + 1 := ⟨fuel - 1, by omega⟩
    simp only [readOperation, unfoldOperation]
    refine Action.bind_congr_at fun union r' hunion => ?_
    obtain ⟨hresult, rfl⟩ := Prod.mk.inj hunion
    cases hu : env.unionOf link.registry with
    | error e =>
      rw [hu] at hresult
      cases hresult
    | ok u =>
      rw [hu] at hresult
      cases hresult
      obtain ⟨table, _, rfl⟩ := Registries.unionOf_eq_ok.1 hu
      -- The payload is read inside one more union, with less room.
      exact readWith_variant_congr (readOperation_advancing env fuel) _ table r
        fun link r' hr => ih link r' (by omega) (by omega)

theorem readWith_unfoldOperation (env : Registries) (otherwise : ReadOperation) {n : Nat}
    (c : Codec) (r : Reader) (hn : r.room < n) :
    readWith (unfoldOperation env otherwise n) c r = read env c r := by
  have hadvancing (link : OperationLink) :
      Advancing fun r => readOperation env (r.room + 1) link r :=
    fun r => readOperation_advancing env (r.room + 1) link r
  refine (readWith_congr hadvancing c r fun link r' hr => ?_).symm
  exact readOperation_eq_unfold env otherwise link r' (by omega) (by omega)

/-! ## The limit -/

/-- Raising the limit changes nothing unless the limit was reached; what is read
    has no more unions inside one another than may be opened; and reading comes
    to its end without looking more often into the table of operations. -/
theorem depth_limit (env : Registries) (c : Codec) (r : Reader) :
    (∀ limit, r.maxDepth ≤ limit → ¬ Exceeds (read env c) r →
      read env c (r.limited limit) = ((read env c r).1, (read env c r).2.limited limit)) ∧
    (∀ v r', r.cursor ≤ r.data.size → read env c r = (.ok v, r') →
      unionDepth env c v ≤ r.room) ∧
    (∀ otherwise n, r.room < n →
      readWith (unfoldOperation env otherwise n) c r = read env c r) := by
  refine ⟨read_rising env c r, fun v r' hr hread => ?_, fun otherwise n hn => ?_⟩
  · obtain ⟨bs, _, _, hspells⟩ := read_sound env c r.room r v r' rfl (Reader.before_nil hr) hread
    exact hspells.unionDepth_le
  · exact readWith_unfoldOperation env otherwise c r hn

/-- A proposal of one transfer, where two unions may be open. -/
def proposedTransfer : Reader :=
  Reader.withLimit 2 (16 :: List.replicate 14 0 ++ [1, 0] ++ List.replicate 23 0)

/-- The two unions that may be open suffice, so more change nothing. -/
theorem depth_limit_proposedTransfer :
    ∃ v r', read .live (Protocol.operation {}) proposedTransfer = (.ok v, r') ∧ r'.cursor = 40 ∧
      unionDepth .live (Protocol.operation {}) v ≤ 2 ∧
      read .live (Protocol.operation {}) (proposedTransfer.limited 32) =
        (.ok v, r'.limited 32) ∧
      ∀ otherwise, readWith (unfoldOperation .live otherwise 3) (Protocol.operation {})
        proposedTransfer = (.ok v, r') := by
  have hinside : proposedTransfer.cursor ≤ proposedTransfer.data.size := by decide
  have hok : (read .live (Protocol.operation {}) proposedTransfer).1.isOk = true := by cbv
  have hcursor : (read .live (Protocol.operation {}) proposedTransfer).2.cursor = 40 := by cbv
  obtain ⟨hraised, hdepth, hunfolded⟩ := depth_limit .live (Protocol.operation {}) proposedTransfer
  rcases hread : read .live (Protocol.operation {}) proposedTransfer with ⟨e | v, r'⟩
  · rw [hread] at hok
    cases hok
  · have hfits : ¬ Exceeds (read .live (Protocol.operation {})) proposedTransfer := by
      rintro ⟨e, r'', he, _⟩
      rw [hread] at he
      cases he
    rw [hread] at hcursor hraised hunfolded
    exact ⟨v, r', rfl, hcursor, hdepth v r' hinside hread, hraised 32 (by decide) hfits,
      fun otherwise => hunfolded otherwise 3 (by decide)⟩

end Codec

end ChainCodec
