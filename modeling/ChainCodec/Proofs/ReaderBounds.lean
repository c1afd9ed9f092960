import ChainCodec.Proofs.Faults.Decoding
import Mathlib

/-! # The reader stays in its buffer

    A reader is started on a buffer and then asked for one thing after the
    other.  Whatever it is asked for, it keeps its buffer, its cursor does not
    go back, and it does not pass the end: `Forward` says so of one call, and
    of a run as a run is call after call.

    What reads a given number of bytes does one of three things, which
    `TakesNext` lists.  The third of them is the only way in which the
    arithmetic of the cursor can fail: the end of what is asked for has no
    address.  `stays_inside` puts this together, and tells which calls can
    come to that. -/

namespace ChainCodec

/-! ## Taking a number of bytes -/

/-- The action gives what `f` makes of the next `n` bytes and stands behind
    them, if there are as many.  If not, it does not move, and says where it
    stands, what it was asked for and how long the buffer is; but that takes an
    address for the end of what it was asked for. -/
structure Read.TakesNext {α : Type} (n : Nat) (f : Bytes → α) (x : Read α) (r : Reader) :
    Prop where
  inside : n ≤ r.remaining → x r = (.ok (f (r.rest.take n)), { r with cursor := r.cursor + n })
  outside : r.remaining < n → r.cursor + n < addressLimit →
    x r = (.error (.error (.outOfBound r.cursor n r.data.size)), r)
  overflow : r.remaining < n → addressLimit ≤ r.cursor + n → x r = (.error .overflow, r)

namespace Reader

variable {r r' r'' : Reader}

theorem slice_eq_take_rest {n : Nat} (h : n ≤ r.remaining) :
    r.slice r.cursor (r.cursor + n) = r.rest.take n := by
  unfold remaining at h
  simp only [rest, slice, Array.toList_extract, List.extract_eq_take_drop, List.take_take]
  congr 1
  omega

theorem le_remaining_iff (h : r.cursor ≤ r.data.size) {n : Nat} :
    n ≤ r.remaining ↔ r.cursor + n ≤ r.data.size := by
  unfold remaining
  omega

theorem take_takesNext (h : r.cursor ≤ r.data.size) (n : Nat) :
    Read.TakesNext n id (Read.take n) r where
  inside hn := by
    have hstop := (le_remaining_iff h).1 hn
    simp only [Read.take, if_pos hstop, slice_eq_take_rest hn, id]
  outside hn hlimit := by
    have hstop := mt (le_remaining_iff h).2 (Nat.not_le.2 hn)
    simp only [Read.take, if_neg hstop, if_pos hlimit]
  overflow hn hlimit := by
    have hstop := mt (le_remaining_iff h).2 (Nat.not_le.2 hn)
    simp only [Read.take, if_neg hstop, if_neg (Nat.not_lt.2 hlimit)]

end Reader

theorem Read.TakesNext.bind_pure {α β : Type} {n : Nat} {f : Bytes → α} {x : Read α} {r : Reader}
    (h : TakesNext n f x r) (g : α → β) :
    TakesNext n (fun bs => g (f bs)) (x >>= fun a => pure (g a)) r where
  inside hn := by rw [Action.bind_ok (h.inside hn), Action.pure_apply]
  outside hn hlimit := Action.bind_error (h.outside hn hlimit) _
  overflow hn hlimit := Action.bind_error (h.overflow hn hlimit) _

namespace Reader

variable {r r' r'' : Reader} {bs : Bytes}

/-! ## Calls -/

/-- What a reader can be asked for. -/
inductive Call where
  | number (type : IntType)
  | varint
  | bytes (n : UInt64)
  | rest
  | since (start : UInt64)
  | position
  | remaining
  | enter
  | leave
  deriving DecidableEq, Repr

inductive Answer where
  | number (n : Int)
  | offset (n : Nat)
  | bytes (bs : Bytes)
  | done
  deriving DecidableEq, Repr

def Call.perform : Call → Read Answer
  | .number type => do
      let n ← Read.fixed type.width.bytes
      pure (.number (type.wrap n))
  | .varint => do
      let n ← Read.varint
      pure (.number n.toNat)
  | .bytes n => do
      let bs ← Read.take n.toNat
      pure (.bytes bs)
  | .rest => do
      let r ← Action.state
      pure (.bytes r.rest)
  | .since start => do
      let bs ← Read.since start.toNat
      pure (.bytes bs)
  | .position => do
      let n ← Read.position
      pure (.offset n)
  | .remaining => do
      let r ← Action.state
      pure (.offset r.remaining)
  | .enter => do
      Read.enter
      pure .done
  | .leave => do
      Action.modify Reader.leave
      pure .done

theorem Call.perform_enter (r : Reader) :
    Call.enter.perform r =
      if r.maxDepth ≤ r.depth then (.error (.error (.depthExceeded r.maxDepth)), r)
      else (.ok .done, { r with depth := r.depth + 1 }) := by
  simp only [Call.perform, Action.bind_apply, Read.enter]
  by_cases h : r.maxDepth ≤ r.depth
  · rw [if_pos h, if_pos h]
  · rw [if_neg h, if_neg h]
    rfl

/-- The reader after a call, whether or not it succeeded. -/
def step (r : Reader) (call : Call) : Reader := (call.perform r).2

def after (calls : List Call) (r : Reader) : Reader := calls.foldl step r

/-- How a reader of the buffer is made. -/
inductive Starts (bs : Bytes) : Reader → Prop
  | whole : Starts bs (ofBytes bs)
  | limited (maxDepth : Nat) : Starts bs (withLimit maxDepth bs)
  | offset {start : Nat} {r : Reader} (h : at? bs start = .ok r) : Starts bs r

/-! ## Only forward, and not past the end -/

/-- The second reader stands in the same buffer, further on but inside. -/
structure Forward (r r' : Reader) : Prop where
  data : r'.data = r.data
  cursor_le : r.cursor ≤ r'.cursor
  cursor_le_size : r.cursor ≤ r.data.size → r'.cursor ≤ r.data.size

theorem Forward.rfl (r : Reader) : r.Forward r := ⟨Eq.refl _, Nat.le_refl _, id⟩

theorem Forward.trans (h : r.Forward r') (h' : r'.Forward r'') : r.Forward r'' :=
  ⟨h'.data.trans h.data, Nat.le_trans h.cursor_le h'.cursor_le,
    fun hr => h.data ▸ h'.cursor_le_size (h.data.symm ▸ h.cursor_le_size hr)⟩

theorem Advances.forward (h : r.Advances r') : r.Forward r' :=
  ⟨h.data, h.cursor_le, h.cursor_le_size⟩

/-- What is opened or closed leaves the cursor alone, all else only reads. -/
theorem step_forward (r : Reader) (call : Call) : r.Forward (r.step call) := by
  have hread {α : Type} {x : Read α} (hx : x.Advancing) (f : α → Answer) :
      r.Forward ((x >>= fun a => pure (f a)) r).2 :=
    (hx.bind (fun a => Read.advancing_pure (f a)) r).forward
  cases call with
  | number type =>
    have hfixed : (Read.fixed type.width.bytes).Advancing :=
      (Read.advancing_take _).bind fun bs => Read.advancing_pure (LittleEndian.decode bs)
    exact hread hfixed fun n => .number (type.wrap n)
  | varint => exact hread Read.advancing_varint fun n => .number n.toNat
  | bytes n => exact hread (Read.advancing_take n.toNat) .bytes
  | since start => exact hread (Read.advancing_since start.toNat) .bytes
  | position => exact hread Read.advancing_position .offset
  | rest => exact .rfl r
  | remaining => exact .rfl r
  | enter =>
    rw [step, Call.perform_enter]
    split
    · exact .rfl r
    · exact ⟨Eq.refl _, Nat.le_refl _, id⟩
  | leave => exact ⟨Eq.refl _, Nat.le_refl _, id⟩

theorem after_forward (calls : List Call) (r : Reader) : r.Forward (after calls r) := by
  induction calls generalizing r with
  | nil => exact .rfl r
  | cons call calls ih => exact (step_forward r call).trans (ih (r.step call))

theorem after_append (calls more : List Call) (r : Reader) :
    after (calls ++ more) r = after more (after calls r) := List.foldl_append

theorem Starts.inside (h : Starts bs r) : r.data = bs.toArray ∧ r.cursor ≤ bs.length := by
  cases h with
  | whole => exact ⟨Eq.refl _, Nat.zero_le _⟩
  | limited maxDepth => exact ⟨Eq.refl _, Nat.zero_le _⟩
  | offset h =>
    unfold at? at h
    split at h
    · cases h
    · rename_i hstart
      cases h
      exact ⟨Eq.refl _, Nat.not_lt.1 hstart⟩

theorem after_inside (h : Starts bs r) (calls : List Call) :
    (after calls r).data = bs.toArray ∧ (after calls r).cursor ≤ bs.length := by
  obtain ⟨hdata, hcursor⟩ := h.inside
  have hforward := after_forward calls r
  have hsize : r.data.size = bs.length := by rw [hdata, List.size_toArray]
  exact ⟨hforward.data.trans hdata, hsize ▸ hforward.cursor_le_size (hsize ▸ hcursor)⟩

/-! ## What a call answers -/

theorem number_takesNext (h : r.cursor ≤ r.data.size) (type : IntType) :
    Read.TakesNext type.width.bytes (fun bs => .number (type.wrap (LittleEndian.decode bs)))
      (Call.number type).perform r :=
  ((take_takesNext h _).bind_pure LittleEndian.decode).bind_pure fun n =>
    Answer.number (type.wrap n)

theorem bytes_takesNext (h : r.cursor ≤ r.data.size) (n : UInt64) :
    Read.TakesNext n.toNat .bytes (Call.bytes n).perform r :=
  (take_takesNext h n.toNat).bind_pure Answer.bytes

/-- Where the buffer is no longer than half of the addresses, only bytes of a
    given number can end past the last address. -/
theorem overflow_iff (h : r.cursor ≤ r.data.size) (hsize : r.data.size < 2 ^ 63) (call : Call) :
    (call.perform r).1 = .error .overflow ↔
      ∃ n, call = .bytes n ∧ 2 ^ 64 ≤ r.cursor + n.toNat := by
  have haddress : addressLimit = 2 ^ 64 := rfl
  have hword : UInt32.size = 2 ^ 32 := rfl
  -- What asks for less than 2 ^ 32 bytes at a time stays below the last address.
  have hclosed := Read.closed_raises (Q := False) (S := fun n => n < UInt32.size) fun n hn => hn
  have hsmall {x : Read Answer} (hx : Read.Raises False (fun n => n < UInt32.size) x) :
      (x r).1 ≠ .error .overflow := by
    intro hover
    rcases hx.2 r _ _ (Prod.ext hover rfl) with ⟨e, he, -⟩ | ⟨-, hpast⟩
    · cases he
    · obtain ⟨n, hn, hlimit⟩ := hpast h
      omega
  constructor
  · intro hover
    cases call with
    | bytes n =>
      refine ⟨n, rfl, ?_⟩
      by_contra hlimit
      have htakes := bytes_takesNext h n
      rcases Nat.lt_or_ge r.remaining n.toNat with hn | hn
      · rw [htakes.outside hn (by omega)] at hover
        cases hover
      · rw [htakes.inside hn] at hover
        cases hover
    | number type =>
      have hwidth : type.width.bytes < UInt32.size := by cases type.width <;> decide
      exact absurd hover (hsmall (hclosed.bind (hclosed.fixed hwidth) fun n => hclosed.pure _))
    | varint => exact absurd hover (hsmall (hclosed.bind hclosed.varint fun n => hclosed.pure _))
    | since start =>
      exact absurd hover (hsmall (hclosed.bind (hclosed.since _) fun bs => hclosed.pure _))
    | position =>
      exact absurd hover (hsmall (hclosed.bind hclosed.position fun n => hclosed.pure _))
    | enter =>
      rw [Call.perform_enter] at hover
      split at hover <;> cases hover
    | rest | remaining | leave => cases hover
  · rintro ⟨n, rfl, hlimit⟩
    have hn : r.remaining < n.toNat := by
      rw [← Nat.not_le, le_remaining_iff h]
      omega
    exact congrArg Prod.fst ((bytes_takesNext h n).overflow hn hlimit)

/-! ## Runs -/

/-- However a reader was started and whatever it was asked for: it stands
    inside its buffer, no calls that follow move it back, and what it is asked
    for next it takes as a whole or not at all.  Only bytes of a given number
    can be asked for so that the end of them has no address, since a buffer is
    no longer than half of the addresses. -/
theorem stays_inside {start : Reader} (hstart : Starts bs start) (calls : List Call) :
    (after calls start).data = bs.toArray ∧
    (after calls start).cursor + (after calls start).remaining = bs.length ∧
    (after calls start).rest = bs.drop (after calls start).cursor ∧
    (∀ more, (after calls start).cursor ≤ (after (calls ++ more) start).cursor) ∧
    (∀ type : IntType, Read.TakesNext type.width.bytes
      (fun taken => Answer.number (type.wrap (LittleEndian.decode taken)))
      (Call.number type).perform (after calls start)) ∧
    (∀ n : UInt64, Read.TakesNext n.toNat Answer.bytes (Call.bytes n).perform
      (after calls start)) ∧
    (bs.length < 2 ^ 63 → ∀ call : Call,
      (call.perform (after calls start)).1 = .error .overflow ↔
        ∃ n, call = .bytes n ∧ 2 ^ 64 ≤ (after calls start).cursor + n.toNat) := by
  obtain ⟨hdata, hcursor⟩ := after_inside hstart calls
  have hsize : (after calls start).data.size = bs.length := by rw [hdata, List.size_toArray]
  have hinside : (after calls start).cursor ≤ (after calls start).data.size := hsize ▸ hcursor
  refine ⟨hdata, ?_, ?_, fun more => ?_, number_takesNext hinside, bytes_takesNext hinside,
    fun hlength => overflow_iff hinside (hsize ▸ hlength)⟩
  · rw [remaining, hsize, Nat.add_sub_cancel' hcursor]
  · rw [rest, slice, hsize, hdata, Array.toList_extract, List.extract_eq_take_drop]
    exact List.take_of_length_le (by rw [List.length_drop])
  · rw [after_append]
    exact (after_forward more _).cursor_le

/-- Behind the first of two bytes there are no three, and the reader stays
    where it is. -/
theorem stays_inside_second_byte :
    (after [.number ⟨false, .w8⟩] (ofBytes [7, 8])).cursor +
      (after [.number ⟨false, .w8⟩] (ofBytes [7, 8])).remaining = 2 ∧
    (Call.bytes 3).perform (after [.number ⟨false, .w8⟩] (ofBytes [7, 8])) =
      (.error (.error (.outOfBound 1 3 2)), after [.number ⟨false, .w8⟩] (ofBytes [7, 8])) := by
  obtain ⟨-, hinside, -, -, -, hbytes, -⟩ :=
    stays_inside (Starts.whole : Starts [7, 8] (ofBytes [7, 8])) [.number ⟨false, .w8⟩]
  exact ⟨hinside, (hbytes 3).outside (by decide) (by decide)⟩

/-- The end of the greatest number of bytes has no address once a byte has
    been read, and then it is not reported that the buffer is too short. -/
theorem bytes_pastLastAddress :
    ((Call.bytes 18446744073709551615).perform
      (after [.number ⟨false, .w8⟩] (ofBytes [0]))).1 = .error .overflow := rfl

end Reader

end ChainCodec
