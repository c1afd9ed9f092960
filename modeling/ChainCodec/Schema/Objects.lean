import ChainCodec.Schema.Shared

/-! # Chain objects

    Objects as a node of the chain gives them.  Nodes add fields of their own,
    so keys that the schema does not name are dropped. -/

namespace ChainCodec.Schema

open Codec

/-- An account as a node gives it, with its lists of other accounts. -/
def accountObject (config : ChainConfig) : Codec :=
  openRecord [
    ("id", accountId),
    ("registrar", accountId),
    ("name", .string),
    ("active", authority config),
    ("echorand_key", echorandKey config),
    ("options", accountOptions),
    ("statistics", implementationId .accountStatistics),
    ("whitelisting_accounts", accountSet),
    ("blacklisting_accounts", accountSet),
    ("whitelisted_accounts", accountSet),
    ("blacklisted_accounts", accountSet),
    ("top_n_control_flags", u8)]

def assetObject : Codec :=
  openRecord [
    ("id", assetId),
    ("symbol", .string),
    ("precision", u8),
    ("issuer", accountId),
    ("options", assetOptions),
    ("dynamic_asset_data_id", implementationId .assetDynamicData),
    ("bitasset_data_id", .optional (implementationId .assetBitassetData))]

/-- The state of the chain at its last block. -/
def dynamicGlobalPropertyObject : Codec :=
  openRecord [
    ("id", implementationId .dynamicGlobalProperty),
    ("head_block_number", u32),
    ("head_block_id", fixedBytes 20),
    ("time", .time),
    ("next_maintenance_time", .time),
    ("last_maintenance_time", .time),
    ("last_irreversible_block_num", u32)]

def balanceObject (config : ChainConfig) : Codec :=
  openRecord [
    ("id", protocolId .balance),
    ("owner", address config),
    ("balance", asset),
    ("last_claim_date", .time)]

end ChainCodec.Schema
