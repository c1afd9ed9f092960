import ChainCodec.Codec

/-! # Shared schemas

    The building blocks of operations, transactions and chain objects.  Only
    keys and addresses depend on the chain: their text starts with the
    chain's prefix. -/

namespace ChainCodec.Schema

open Codec

/-! ## Ids and bytes -/

def accountId : Codec := protocolId .account

def assetId : Codec := protocolId .asset

def contractId : Codec := protocolId .contract

def committeeMemberId : Codec := protocolId .committeeMember

def publicKey (config : ChainConfig) : Codec := .publicKey .secp256k1 config.addressPrefix

def echorandKey (config : ChainConfig) : Codec := .publicKey .ed25519 config.addressPrefix

def address (config : ChainConfig) : Codec := .address .graphene config.addressPrefix

/-- An address of the chain's other family, which has no prefix. -/
def ptsAddress : Codec := .address .pts ""

def ethAddress : Codec := fixedBytes 20

def sha256 : Codec := fixedBytes 32

def optionalAccount : Codec := .optional accountId

def accountSet : Codec := .set accountId

/-- Room for later versions of the protocol; the only case holds nothing. -/
def futureExtensions : Codec := .set (union [(0, .void)])

/-! ## Assets and prices -/

/-- An amount of an asset. -/
def asset : Codec :=
  record [("amount", i64), ("asset_id", assetId)]

/-- What one amount is worth in another asset. -/
def price : Codec :=
  record [("base", asset), ("quote", asset)]

def priceFeed : Codec :=
  record [
    ("settlement_price", price),
    ("maintenance_collateral_ratio", u16),
    ("maximum_short_squeeze_ratio", u16),
    ("core_exchange_rate", price)]

def assetOptions : Codec :=
  record [
    ("max_supply", i64),
    ("issuer_permissions", u16),
    ("flags", u16),
    ("core_exchange_rate", price),
    ("whitelist_authorities", accountSet),
    ("blacklist_authorities", accountSet),
    ("description", .string),
    ("extensions", futureExtensions)]

def bitassetOptions : Codec :=
  record [
    ("feed_lifetime_sec", u32),
    ("minimum_feeds", u8),
    ("short_backing_asset", assetId),
    ("extensions", futureExtensions)]

/-! ## Accounts -/

/-- Accounts and keys with weights, which have to add up to a threshold. -/
def authority (config : ChainConfig) : Codec :=
  record [
    ("weight_threshold", u32),
    ("account_auths", .map accountId u16),
    ("key_auths", .map (publicKey config) u16)]

def accountOptions : Codec :=
  record [
    ("delegating_account", accountId),
    ("delegate_share", u16),
    ("extensions", futureExtensions)]

/-- When a balance is paid out: from a date on, or as coins age. -/
def vestingPolicyInitializer : Codec :=
  union [
    (0, record [
      ("begin_timestamp", .time),
      ("vesting_cliff_seconds", u32),
      ("vesting_duration_seconds", u32)]),
    (1, record [
      ("start_claim", .time),
      ("vesting_seconds", u32)])]

/-! ## Sidechains -/

def btcTransactionDetails : Codec :=
  record [
    ("block_number", u64),
    ("out", record [
      ("tx_id", .string),
      ("index", u32),
      ("amount", u64)])]

end ChainCodec.Schema
