import ChainCodec.Proofs.JsonRoundTrip
import ChainCodec.Proofs.PrefixFree

/-! # What a signature commits to

    The bytes that are hashed for a signature are the id of the chain and the
    bytes of the transaction, without anything between them.  Ids of one
    length can be told from what follows, and the bytes of a transaction
    determine its canonical value, proposals inside proposals included. -/

namespace ChainCodec

open Codec

/-- Chain ids of one length and transactions are signed as the same bytes
    exactly if the ids are the same and the transactions have the same
    canonical value. -/
theorem Transaction.signedBytes_eq_iff (p : Protocol) {id id' b b' : Bytes} {v v' : Value}
    (hlength : id.length = id'.length) (hb : serialize .live p.transaction v = .ok b)
    (hb' : serialize .live p.transaction v' = .ok b') :
    signedBytes id b = signedBytes id' b' ↔
      id = id' ∧ normalize .live p.transaction v = normalize .live p.transaction v' := by
  constructor
  · intro h
    obtain ⟨hid, rfl⟩ := List.append_inj h hlength
    have hmem : ("transaction", p.transaction) ∈ p.codecs := by simp [Protocol.codecs]
    exact ⟨hid, normalize_eq_of_serialize (p.distinctNames_of_mem_codecs hmem)
      (p.singleTyped_of_mem_codecs hmem) hb hb'⟩
  · intro h
    obtain ⟨rfl, hnormal⟩ := h
    -- Serialization goes through the canonical value, and so gives one result.
    have hsame : serialize .live p.transaction v = serialize .live p.transaction v' := by
      rw [serialize, serialize, hnormal]
    rw [Except.ok.inj (hb.symm.trans (hsame.trans hb'))]

/-- `canonicalTransaction` with its fields in another order, and with other
    spellings of ids and numbers. -/
def respelledTransaction : Value :=
  .object [
    ("operations", .array [.array [.int 0, .object [
      ("to", .int 7),
      ("fee", .object [("amount", .int 0), ("asset_id", .int 0)]),
      ("from", .int 5),
      ("amount", .object [("amount", .str "-1"), ("asset_id", .int 0)]),
      ("extensions", .null)]]]),
    ("ref_block_prefix", .str "4294967295"),
    ("ref_block_num", .int 7),
    ("expiration", .str "2106-02-07T06:28:15"),
    ("extensions", .null)]

/-- The encoding of both. -/
def transactionBytes : Bytes :=
  [7, 0, 255, 255, 255, 255, 255, 255, 255, 255, 1, 0, 0, 0, 0, 0, 0, 0, 0, 0, 0, 5, 7, 255, 255,
    255, 255, 255, 255, 255, 255, 0, 0, 0]

theorem serialize_respelledTransaction :
    serialize .live (Protocol.transaction {}) respelledTransaction = .ok transactionBytes := by
  cbv

theorem serialize_canonicalTransaction :
    serialize .live (Protocol.transaction {}) canonicalTransaction = .ok transactionBytes := by
  cbv

theorem Transaction.signedBytes_respelledTransaction :
    (normalize .live (Protocol.transaction {}) canonicalTransaction =
        normalize .live (Protocol.transaction {}) respelledTransaction) ∧
      signedBytes [1, 2] transactionBytes ≠ signedBytes [1, 3] transactionBytes := by
  have hlength : ([1, 2] : Bytes).length = ([1, 3] : Bytes).length := rfl
  have hsame := signedBytes_eq_iff {} (rfl : ([1, 2] : Bytes).length = _)
    serialize_canonicalTransaction serialize_respelledTransaction
  have hother := signedBytes_eq_iff {} hlength serialize_canonicalTransaction
    serialize_respelledTransaction
  refine ⟨(hsame.1 rfl).2, fun h => ?_⟩
  exact absurd (hother.1 h).1 (by decide)

end ChainCodec
