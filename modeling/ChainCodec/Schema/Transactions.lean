import ChainCodec.Schema.Operations

/-! # Transactions and blocks

    A signed transaction is a transaction with further fields behind it, and
    a processed one has further fields again; so the bytes that are signed
    come first in all three.  Blocks extend their header in the same way. -/

namespace ChainCodec.Schema

open Codec

/-- What is signed: some operations, and the block that they refer to. -/
def transaction (operation : Codec) : Codec :=
  record [
    ("ref_block_num", u16),
    ("ref_block_prefix", u32),
    ("expiration", .time),
    ("operations", .vector operation),
    ("extensions", futureExtensions)]

def signedTransaction (operation : Codec) : Codec :=
  (transaction operation).extend [
    ("signatures", .vector (fixedBytes 64)),
    ("signed_with_echorand_key", .bool)]

/-- What an operation left behind: nothing, an object or an amount. -/
def operationResult : Codec :=
  union [(0, .void), (1, .anyObjectId), (2, asset)]

/-- A transaction in a block, with the results of its operations. -/
def processedTransaction (operation : Codec) : Codec :=
  (signedTransaction operation).extend [
    ("operation_results", .vector operationResult),
    ("fees_collected", i64)]

def blockHeader : Codec :=
  record [
    ("previous", fixedBytes 20),
    ("timestamp", .time),
    ("account", accountId),
    ("delegate", accountId),
    ("transaction_merkle_root", fixedBytes 20),
    ("vm_root", .vector .string),
    ("extensions", futureExtensions)]

def echorandSignature : Codec :=
  record [
    ("producer", u32),
    ("step", u8),
    ("value", u8),
    ("signature", fixedBytes 64),
    ("bba_sign", fixedBytes 64)]

def signedBlock (operation : Codec) : Codec :=
  blockHeader.extend [
    ("ed_signatures", .vector echorandSignature),
    ("transactions", .vector (processedTransaction operation))]

end ChainCodec.Schema
