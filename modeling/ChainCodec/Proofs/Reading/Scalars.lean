import ChainCodec.Proofs.Identifiers
import ChainCodec.Proofs.Sequence
import ChainCodec.Proofs.Varint

/-! # Reading scalars

    For each scalar, which bytes are read and what they are read as. -/

namespace ChainCodec

namespace Read

open Varint

variable {k : Nat}

/-- A fixed number of bytes is read as an integer, the lowest byte first. -/
theorem sound_fixed (width : Nat) :
    Sound k (fun bs n => bs.length = width ∧ n = LittleEndian.decode bs) (fixed width) := by
  apply (sound_take width).map
  intro bs _ h
  rcases h with ⟨hlength, rfl⟩
  exact ⟨hlength, rfl⟩

theorem yields_fixed {bs : Bytes} {width : Nat} (h : bs.length = width) :
    Yields k (fixed width) bs (LittleEndian.decode bs) :=
  (yields_take h).bind_nil (yields_pure _)

/-- What is read behind a count has as many bytes as it says. -/
theorem sound_blob :
    Sound k (fun bs a => ∃ count, Counts a.length count ∧ bs = count ++ a) blob := by
  refine (sound_varint.bind fun n => sound_take n.toNat).imp ?_
  intro _ a h
  rcases h with ⟨n, count, bs, hn, ⟨hlength, rfl⟩, rfl⟩
  exact ⟨count, ⟨n, hlength.symm, hn⟩, rfl⟩

theorem yields_blob {count bs : Bytes} (h : Counts bs.length count) :
    Yields k blob (count ++ bs) bs := by
  obtain ⟨n, hn, hspells⟩ := h
  exact (yields_varint hspells).bind (yields_take hn.symm)

/-- One byte is read, which has only two values. -/
theorem sound_bool : Sound k (fun bs b => bs = [if b then 1 else 0]) bool := by
  -- Only two bytes are let through, and nothing is read behind them.
  have hrest : ∀ b : UInt8, Sound k (fun bs a => b :: bs = [if a then 1 else 0])
      (if b = 0 then pure false
      else if b = 1 then pure true
      else fail (.decode (.boolByte b))) := by
    intro b
    split
    · rename_i hb
      refine (sound_pure false).imp ?_
      intro _ _ h
      rcases h with ⟨rfl, rfl⟩
      rw [hb]
      rfl
    · split
      · rename_i hb
        refine (sound_pure true).imp ?_
        intro _ _ h
        rcases h with ⟨rfl, rfl⟩
        rw [hb]
        rfl
      · exact sound_fail _
  refine (sound_byte.bind hrest).imp ?_
  intro _ a h
  rcases h with ⟨b, _, bs, rfl, h, rfl⟩
  exact h

theorem yields_bool (b : Bool) : Yields k bool [if b then 1 else 0] b := by
  refine (yields_byte _).bind_nil ?_
  cases b with
  | false => exact yields_pure false
  | true => exact yields_pure true

/-- Bytes that are taken for a text are the bytes of the text. -/
theorem encode_of_decode {bs : Bytes} {s : String} (h : Utf8.decode bs = .ok s) :
    Utf8.encode s = bs := by
  unfold Utf8.decode at h
  split at h
  · rename_i t ht
    obtain rfl := Except.ok.inj h
    unfold String.fromUTF8? at ht
    split at ht
    · obtain rfl := Option.some.inj ht
      rfl
    · cases ht
  · cases h

theorem sound_string :
    Sound k (fun bs s => ∃ count, Counts (Utf8.encode s).length count ∧
      bs = count ++ Utf8.encode s) string := by
  refine (sound_blob.bind fun bs => sound_ofResult _).imp ?_
  intro _ s h
  rcases h with ⟨bs, _, _, ⟨count, hcount, rfl⟩, ⟨rfl, h⟩, rfl⟩
  -- The text stands for the bytes that it was decoded from.
  have hencode := encode_of_decode (Except.mapError_eq_ok.1 h)
  rw [hencode, List.append_nil]
  exact ⟨count, hcount, rfl⟩

theorem yields_string {count : Bytes} {s : String} (h : Counts (Utf8.encode s).length count) :
    Yields k string (count ++ Utf8.encode s) s :=
  (yields_blob h).bind_nil
    (yields_ofResult (Except.mapError_eq_ok.2 (Utf8.decode_encode s)))

/-- A point is read if it passes the check of its scheme, and becomes its text. -/
theorem sound_publicKey (scheme : KeyScheme) (start : String) :
    Sound k (fun bs text => PublicKey.check scheme bs = .ok () ∧
      text = PublicKey.render scheme start bs) (publicKey scheme start) := by
  have hrest (point : Bytes) : Sound k (fun bs text => bs = [] ∧
      PublicKey.check scheme point = .ok () ∧ text = PublicKey.render scheme start point) (do
        ofResult ((PublicKey.check scheme point).mapError fun f => .decode (.publicKey f))
        pure (PublicKey.render scheme start point)) := by
    apply (sound_ofResult _).map
    intro bs _ h
    exact ⟨h.1, Except.mapError_eq_ok.1 h.2, rfl⟩
  refine ((sound_take _).bind hrest).imp ?_
  intro _ text h
  rcases h with ⟨point, _, _, ⟨_, rfl⟩, ⟨rfl, hcheck, rfl⟩, rfl⟩
  rw [List.append_nil]
  exact ⟨hcheck, rfl⟩

theorem yields_publicKey {scheme : KeyScheme} {point : Bytes} (start : String)
    (h : PublicKey.check scheme point = .ok ()) :
    Yields k (publicKey scheme start) point (PublicKey.render scheme start point) := by
  refine (yields_take (PublicKey.length_of_check h)).bind_nil ?_
  exact (yields_ofResult (Except.mapError_eq_ok.2 h)).bind_nil (yields_pure _)

theorem sound_address (scheme : AddressScheme) (start : String) :
    Sound k (fun bs text => ∃ a, Address.ofBytes scheme bs = .ok a ∧ text = a.render start)
      (address scheme start) := by
  have hrest (data : Bytes) : Sound k (fun bs text => bs = [] ∧
      ∃ a, Address.ofBytes scheme data = .ok a ∧ text = a.render start) (do
        let a ← ofResult ((Address.ofBytes scheme data).mapError fun f => .decode (.address f))
        pure (a.render start)) := by
    apply (sound_ofResult _).map
    intro bs a h
    exact ⟨h.1, a, Except.mapError_eq_ok.1 h.2, rfl⟩
  refine ((sound_take _).bind hrest).imp ?_
  intro _ text h
  rcases h with ⟨data, _, _, ⟨_, rfl⟩, ⟨rfl, ha⟩, rfl⟩
  rw [List.append_nil]
  exact ha

theorem yields_address {scheme : AddressScheme} {bs : Bytes} {a : Address} (start : String)
    (h : Address.ofBytes scheme bs = .ok a) :
    Yields k (address scheme start) bs (a.render start) := by
  refine (yields_take (Address.bytes_of_ofBytes h).2).bind_nil ?_
  exact (yields_ofResult (Except.mapError_eq_ok.2 h)).bind_nil (yields_pure _)

/-- Sorting reads nothing more. -/
theorem sound_ordered (duplicate : Bytes → Cause) (entries : List Order.Entry) :
    Sound k (fun bs v => bs = [] ∧ ∃ items, Order.sortUnique entries = .ok items ∧
      v = .array items) (ordered duplicate entries) := by
  apply (sound_ofResult _).map
  intro bs items h
  exact ⟨h.1, items, Except.mapError_eq_ok.1 h.2, rfl⟩

theorem yields_ordered {duplicate : Bytes → Cause} {entries : List Order.Entry}
    {items : List Value} (h : Order.sortUnique entries = .ok items) :
    Yields k (ordered duplicate entries) [] (.array items) :=
  (yields_ofResult (Except.mapError_eq_ok.2 h)).bind_nil (yields_pure _)

/-- Only the instance is on the wire, and only where there is one type. -/
theorem sound_objectId (space type : UInt8) (more : List UInt8) :
    Sound k (fun bs id => more = [] ∧ ∃ n, Varint.Spells n bs ∧
      id = ⟨space, type, n.toUInt64⟩) (objectId space type more) := by
  unfold objectId
  split
  · rename_i hmore
    apply sound_varint.map
    intro bs n hn
    exact ⟨List.isEmpty_iff.1 hmore, n, hn, rfl⟩
  · exact sound_fail _

theorem yields_objectId {n : UInt32} {bs : Bytes} (space type : UInt8) (h : Varint.Spells n bs) :
    Yields k (objectId space type []) bs ⟨space, type, n.toUInt64⟩ :=
  (yields_varint h).bind_nil (yields_pure _)

end Read

end ChainCodec
