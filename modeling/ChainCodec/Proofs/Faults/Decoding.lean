import ChainCodec.Proofs.Faults.Encoding
import ChainCodec.Proofs.Unfolding.Read

/-! # Errors while bytes are read

    Reading finds fault with the bytes; the only other error is that an
    operation codec finds no table.  Checks that reading shares with the other
    phases report a fault of decoding here.

    A read may also stop without an error, where the end of what is asked for
    has no address.  Numbers on the wire are too small for this in any buffer
    of a sensible size, and the fixed number of a codec need not be. -/

namespace ChainCodec

/-- The error is about the bytes, or a table is missing, which `Q` allows
    for. -/
def Error.OfDecoding (Q : Prop) (e : Error) : Prop :=
  e.isDecode = true ∨ e.kind = .registry ∧ Q

theorem Error.OfDecoding.within {Q : Prop} {e : Error} (h : e.OfDecoding Q) (c : Context) :
    (e.within c).OfDecoding Q := by
  rcases h with h | ⟨h, hQ⟩
  · exact .inl (by rw [Error.isDecode_within, h])
  · exact .inr ⟨by simp [Error.within, h], hQ⟩

/-- A read of one of the sizes ends past the last address. -/
def Reader.Overflows (S : Nat → Prop) (r : Reader) : Prop :=
  r.cursor ≤ r.data.size → ∃ n, S n ∧ addressLimit ≤ r.data.size + n

theorem Reader.Advances.overflows {S : Nat → Prop} {r r' : Reader} (h : r.Advances r')
    (h' : r'.Overflows S) : r.Overflows S := by
  intro hr
  have hr' : r'.cursor ≤ r'.data.size := h.data ▸ h.cursor_le_size hr
  exact h.data ▸ h' hr'

namespace Read

variable {α β : Type} {Q : Prop} {S : Nat → Prop}

/-- Whatever goes wrong belongs to decoding, or comes from one of the sizes. -/
def Raises (Q : Prop) (S : Nat → Prop) (x : Read α) : Prop :=
  x.Advancing ∧ ∀ r h r', x r = (.error h, r') →
    (∃ e, h = .error e ∧ e.OfDecoding Q) ∨ h = .overflow ∧ r.Overflows S

theorem raises_ofResult {y : Except Error α} (h : ∀ e, y = .error e → e.OfDecoding Q) :
    Raises Q S (ofResult y) := by
  refine ⟨advancing_ofResult y, fun r halt r' hy => .inl ?_⟩
  obtain ⟨hy, _⟩ := Prod.mk.inj hy
  cases y with
  | error e =>
    cases hy
    exact ⟨e, rfl, h e rfl⟩
  | ok a => cases hy

theorem raises_take {n : Nat} (hn : S n) : Raises Q S (take n) := by
  refine ⟨advancing_take n, fun r halt r' h => ?_⟩
  simp only [take] at h
  split at h
  · cases h
  · split at h
    · cases h
      exact .inl ⟨_, rfl, .inl rfl⟩
    · rename_i hlimit
      cases h
      exact .inr ⟨rfl, fun hr => ⟨n, hn, by omega⟩⟩

theorem Raises.bind {x : Read α} {f : α → Read β} (hx : Raises Q S x)
    (hf : ∀ a, Raises Q S (f a)) : Raises Q S (x >>= f) := by
  refine ⟨hx.1.bind fun a => (hf a).1, fun r halt r' h => ?_⟩
  rcases hxr : x r with ⟨halt' | a, r₁⟩
  · rw [Action.bind_error hxr] at h
    cases h
    exact hx.2 r halt _ hxr
  · rw [Action.bind_ok hxr] at h
    -- What is past the end for the second action is so for the first one.
    exact ((hf a).2 r₁ halt r' h).imp_right fun h => ⟨h.1, (hx.1.of_eq hxr).overflows h.2⟩

theorem Raises.within {x : Read α} (hx : Raises Q S x) (c : Context) :
    Raises Q S (Read.within c x) := by
  refine ⟨hx.1.within c, fun r halt r' h => ?_⟩
  rcases hxr : x r with ⟨halt' | a, r₁⟩
  · simp only [Read.within, Action.mapError, hxr] at h
    cases h
    rcases hx.2 r halt' _ hxr with ⟨e, rfl, he⟩ | ⟨rfl, hover⟩
    · exact .inl ⟨e.within c, rfl, he.within c⟩
    · exact .inr ⟨rfl, hover⟩
  · simp only [Read.within, Action.mapError, hxr] at h
    cases h

theorem Raises.nested {x : Read α} (hx : Raises Q S x) : Raises Q S (Read.nested x) := by
  refine ⟨hx.1.nested, fun r halt r' h => ?_⟩
  by_cases hdepth : r.maxDepth ≤ r.depth
  · simp only [Read.nested, Action.bind_apply, enter, hdepth, if_true] at h
    cases h
    exact .inl ⟨_, rfl, .inl rfl⟩
  · simp only [Read.nested, Action.bind_apply, enter, hdepth, if_false, thenLeave] at h
    rcases hin : x { r with depth := r.depth + 1 } with ⟨halt' | a, r₁⟩
    · rw [hin] at h
      cases h
      exact hx.2 { r with depth := r.depth + 1 } halt _ hin
    · rw [hin] at h
      cases h

theorem closed_raises (hS : ∀ n, n < UInt32.size → S n) : Closed fun x => Raises Q S x where
  ofResult h := raises_ofResult fun e he => .inl (h e he)
  take hn := raises_take (hS _ hn)
  position := ⟨advancing_position, fun r halt r' h => by cases h⟩
  since start := ⟨advancing_since start, fun r halt r' h => by cases h⟩
  bind := .bind
  within c hx := hx.within c
  nested := .nested

end Read

namespace Codec

open Read

variable {env : Registries} {c : Codec} {Q : Prop} {S : Nat → Prop}

theorem raises_unionOf {link : OperationLink} (h : LacksTable env (.operation link) → Q) :
    Raises Q S (ofResult (env.unionOf link.registry)) := by
  refine raises_ofResult fun e he => ?_
  obtain ⟨hkind, hlacks⟩ := lacksTable_of_unionOf he
  exact .inr ⟨hkind, h hlacks⟩

/-- What the codec itself brings fails in the ways that are allowed. -/
theorem holdsAt_raises {op : ReadOperation}
    (hop : ∀ link, Reaches env c (.operation link) → Raises Q S (op link))
    (hsize : ∀ n, Reaches env c (.bytes (some n)) → S n) (d : Codec) (hd : Reaches env c d) :
    HoldsAt (fun x => Raises Q S x) op d := by
  match d with
  | .operation link => exact hop link hd
  | .bytes (some n) => exact raises_take (hsize n hd)
  | .bytes none | .int _ | .varint | .bool | .string | .time | .void | .vector _ | .set _ | .map ..
  | .optional _ | .pair .. | .variant .. | .struct .. | .objectId .. | .anyObjectId
  | .publicKey .. | .address .. => trivial

theorem readOperation_raises (hS : ∀ n, n < UInt32.size → S n) {fuel : Nat} {link : OperationLink}
    (hQ : LacksTable env (.operation link) → Q)
    (hsize : ∀ n, Reaches env (.operation link) (.bytes (some n)) → S n) {r : Reader}
    (hroom : r.room < fuel) {halt : Halt} {r' : Reader}
    (h : readOperation env fuel link r = (.error halt, r')) :
    (∃ e, halt = .error e ∧ e.OfDecoding Q) ∨ halt = .overflow ∧ r.Overflows S := by
  induction fuel generalizing link r halt r' with
  | zero => omega
  | succ fuel ih =>
    simp only [readOperation] at h
    cases hunion : env.unionOf link.registry with
    | error e =>
      have hfail : ofResult (env.unionOf link.registry) r = (.error (.error e), r) := by
        rw [hunion]
        rfl
      rw [Action.bind_error hfail] at h
      cases h
      exact (raises_unionOf (S := S) hQ).2 r _ _ hfail
    | ok union =>
      obtain ⟨table, htable, rfl⟩ := Registries.unionOf_eq_ok.1 hunion
      rw [hunion] at h
      change readWith (readOperation env fuel) (.variant operationLabel table) r = _ at h
      -- Operations inside the union have less room, so the guard changes nothing.
      let guarded : ReadOperation := fun link r =>
        if r.room < fuel then readOperation env fuel link r else (.ok .null, r)
      have hguarded : readWith (readOperation env fuel) (.variant operationLabel table) r =
          readWith guarded (.variant operationLabel table) r :=
        readWith_variant_congr (readOperation_advancing env fuel) _ table r
          fun link r' hr' => (if_pos (by omega)).symm
      rw [hguarded] at h
      refine (readWith_closed env (closed_raises hS) (.variant operationLabel table)
        (holdsAt_raises (fun link' hlink' => ⟨fun r => ?_, fun r halt r' h => ?_⟩) ?_)).2 r _ _ h
      · by_cases hr : r.room < fuel
        · simp only [guarded, if_pos hr]
          exact readOperation_advancing env fuel link' r
        · simp only [guarded, if_neg hr]
          exact .rfl r
      · by_cases hr : r.room < fuel
        · simp only [guarded, if_pos hr] at h
          have hreaches : Reaches env (.operation link) (.operation link') :=
            hlink'.of_union htable (by intro h; cases h)
          exact ih (fun hlacks => hQ (hlacks.of_reaches hreaches))
            (fun n hn => hsize n (hreaches.trans hn)) hr h
        · simp only [guarded, if_neg hr] at h
          cases h
      · exact fun n hn => hsize n (hn.of_union htable (by intro h; cases h))

/-- Reading fails because the bytes are refused, or for want of a table; and
    it stops where a size is too large for addresses. -/
theorem read_raises (hS : ∀ n, n < UInt32.size → S n) (hQ : LacksTable env c → Q)
    (hsize : ∀ n, Reaches env c (.bytes (some n)) → S n) : Raises Q S (read env c) := by
  refine readWith_closed env (closed_raises hS) c (holdsAt_raises (fun link hlink => ?_) hsize)
  refine ⟨fun r => readOperation_advancing env _ link r, fun r halt r' h => ?_⟩
  exact readOperation_raises hS (fun hlacks => hQ (hlacks.of_reaches hlink))
    (fun n hn => hsize n (hlink.trans hn)) (Nat.lt_succ_self _) h

end Codec

end ChainCodec
