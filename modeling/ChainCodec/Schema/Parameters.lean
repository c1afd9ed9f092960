import ChainCodec.Chain.OperationId
import ChainCodec.Schema.Shared

/-! # Chain parameters

    What the committee of a chain votes on: the fees of all operations and
    the limits of blocks, consensus and sidechains. -/

namespace ChainCodec.Schema

open Codec

/-! ## Fees -/

def flatFee : Codec := record [("fee", u64)]

def feePerKbyte : Codec := record [("fee", u64), ("price_per_kbyte", u32)]

/-- What the fee of an operation is computed from.  Virtual operations are
    never paid for and have no parameters. -/
def feeParametersOf : OperationId → Codec
  | .accountCreate =>
      record [("basic_fee", u64), ("premium_fee", u64), ("price_per_kbyte", u32)]
  | .assetCreate =>
      record [("symbol3", u64), ("symbol4", u64), ("long_symbol", u64), ("price_per_kbyte", u32)]
  | .transfer | .transferToAddress | .overrideTransfer | .accountUpdate | .assetUpdate
  | .assetIssue | .proposalCreate | .proposalUpdate | .committeeMemberCreate
  | .contractCreate | .contractCall => feePerKbyte
  | .contractInternalCreate | .contractInternalCall | .contractSelfdestruct
  | .sidechainIssue | .sidechainBurn | .sidechainErc20Issue | .sidechainErc20Burn
  | .blockReward => .void
  | _ => flatFee

/-- The fee of one operation, told by its id. -/
def feeParameters : Codec :=
  union (OperationId.all.map fun id => (id.code, feeParametersOf id))

/-- The fees of all operations, with the scale that they have in common. -/
def feeSchedule : Codec :=
  record [("parameters", .set feeParameters), ("scale", u32)]

/-! ## Consensus and sidechains -/

def echorandConfig : Codec :=
  record [
    ("time_net_1mb", u32),
    ("time_net_256b", u32),
    ("creator_count", u32),
    ("verifier_count", u32),
    ("ok_threshold", u32),
    ("max_bba_steps", u32),
    ("gc1_delay", u32)]

def ethMethod : Codec := record [("method", .string), ("gas", u64)]

def sidechainConfig : Codec :=
  record [
    ("eth_contract_address", ethAddress),
    ("eth_committee_update_method", ethMethod),
    ("eth_gen_address_method", ethMethod),
    ("eth_withdraw_method", ethMethod),
    ("eth_update_addr_method", ethMethod),
    ("eth_withdraw_token_method", ethMethod),
    ("eth_collect_tokens_method", ethMethod),
    ("eth_committee_updated_topic", fixedBytes 32),
    ("eth_gen_address_topic", fixedBytes 32),
    ("eth_deposit_topic", fixedBytes 32),
    ("eth_withdraw_topic", fixedBytes 32),
    ("erc20_deposit_topic", fixedBytes 32),
    ("erc20_withdraw_topic", fixedBytes 32),
    ("eth_asset_id", assetId),
    ("btc_asset_id", assetId),
    ("fines", record [("create_eth_address", i64)]),
    ("waiting_blocks", u32),
    ("waiting_eth_blocks", u32),
    ("waiting_btc_blocks", u32),
    ("satoshis_per_byte", u32),
    ("coefficient_waiting_blocks", u32),
    ("btc_deposit_withdrawal_min", u64),
    ("btc_deposit_withdrawal_fee", u64)]

def erc20Config : Codec :=
  record [
    ("contract_code", .string),
    ("create_token_fee", u64),
    ("transfer_topic", fixedBytes 32),
    ("check_balance_method", ethMethod),
    ("burn_method", ethMethod),
    ("issue_method", ethMethod)]

def gasPrice : Codec := record [("price", u64), ("gas_amount", u64)]

def economyConfig : Codec :=
  record [
    ("blocks_in_interval", u64),
    ("maintenances_in_interval", u8),
    ("block_emission_amount", u64),
    ("block_producer_reward_ratio", u16),
    ("pool_divider", u16),
    ("allow_eth_fee_payment", .bool)]

/-- All that the committee votes on. -/
def chainParameters : Codec :=
  record [
    ("current_fees", feeSchedule),
    ("maintenance_interval", u32),
    ("maintenance_duration_seconds", u8),
    ("committee_proposal_review_period", u32),
    ("maximum_transaction_size", u32),
    ("maximum_block_size", u32),
    ("maximum_time_until_expiration", u32),
    ("maximum_proposal_lifetime", u32),
    ("maximum_asset_whitelist_authorities", u8),
    ("maximum_asset_feed_publishers", u8),
    ("maximum_authority_membership", u16),
    ("max_authority_depth", u8),
    ("block_emission_amount", u64),
    ("block_producer_reward_ratio", u16),
    ("committee_frozen_balance_to_activate", u64),
    ("committee_maintenance_intervals_to_deposit", u64),
    ("committee_balance_unfreeze_duration_seconds", u32),
    ("frozen_balances_multipliers", .map u16 u32),
    ("echorand_config", echorandConfig),
    ("sidechain_config", sidechainConfig),
    ("erc20_config", erc20Config),
    ("gas_price", gasPrice),
    ("valid_fee_asset", .optional assetId),
    ("economy_config", economyConfig),
    ("extensions", futureExtensions)]

end ChainCodec.Schema
