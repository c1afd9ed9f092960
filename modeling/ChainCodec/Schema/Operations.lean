import ChainCodec.Registry
import ChainCodec.Schema.Parameters

/-! # Operations

    The fields of every operation.  All operations start with their fee and
    end with extensions; `bodyOf` lists what stands between.

    A proposal carries operations of its own.  Their codec reaches the table
    through the registry without owning it. -/

namespace ChainCodec.Schema

open Codec

/-- An operation inside an operation. -/
def nestedOperation (registry : RegistryId) : Codec :=
  .operation {
    registry := registry
    owned := false
    feeAsset := registry.config.coreAssetId
    zeroFee := false }

/-- The fields of an operation between its fee and its extensions. -/
def bodyOf (config : ChainConfig) (nested : Codec) : OperationId → List (String × Codec)
  | .transfer => [("from", accountId), ("to", accountId), ("amount", asset)]
  | .transferToAddress => [("from", accountId), ("to", address config), ("amount", asset)]
  | .overrideTransfer =>
      [("issuer", accountId), ("from", accountId), ("to", accountId), ("amount", asset)]
  | .accountCreate =>
      [("registrar", accountId), ("name", .string), ("active", authority config),
       ("echorand_key", echorandKey config), ("evm_address", .optional ethAddress),
       ("options", accountOptions)]
  | .accountUpdate =>
      [("account", accountId), ("active", .optional (authority config)),
       ("echorand_key", .optional (echorandKey config)),
       ("new_options", .optional accountOptions)]
  | .accountWhitelist =>
      [("authorizing_account", accountId), ("account_to_list", accountId), ("new_listing", u8)]
  | .accountAddressCreate => [("owner", accountId), ("label", .string)]
  | .assetCreate =>
      [("issuer", accountId), ("symbol", .string), ("precision", u8),
       ("common_options", assetOptions), ("bitasset_opts", .optional bitassetOptions)]
  | .assetUpdate =>
      [("issuer", accountId), ("asset_to_update", assetId), ("new_issuer", optionalAccount),
       ("new_options", assetOptions)]
  | .assetUpdateBitasset =>
      [("issuer", accountId), ("asset_to_update", assetId), ("new_options", bitassetOptions)]
  | .assetUpdateFeedProducers =>
      [("issuer", accountId), ("asset_to_update", assetId), ("new_feed_producers", accountSet)]
  | .assetIssue =>
      [("issuer", accountId), ("asset_to_issue", asset), ("issue_to_account", accountId)]
  | .assetReserve => [("payer", accountId), ("amount_to_reserve", asset)]
  | .assetFundFeePool => [("from_account", accountId), ("asset_id", assetId), ("amount", i64)]
  | .assetPublishFeed =>
      [("publisher", accountId), ("asset_id", assetId), ("core_exchange_rate", price)]
  | .assetClaimFees => [("issuer", accountId), ("amount_to_claim", asset)]
  | .proposalCreate =>
      [("fee_paying_account", accountId), ("expiration_time", .time),
       ("proposed_ops", .vector nested), ("review_period_seconds", .optional u32)]
  | .proposalUpdate =>
      [("fee_paying_account", accountId), ("proposal", protocolId .proposal),
       ("active_approvals_to_add", accountSet), ("active_approvals_to_remove", accountSet),
       ("key_approvals_to_add", .set (publicKey config)),
       ("key_approvals_to_remove", .set (publicKey config))]
  | .proposalDelete =>
      [("fee_paying_account", accountId), ("using_owner_authority", .bool),
       ("proposal", protocolId .proposal)]
  | .committeeMemberCreate =>
      [("committee_member_account", accountId), ("url", .string), ("eth_address", .string),
       ("btc_public_key", .string), ("deposit", asset)]
  | .committeeMemberUpdate =>
      [("committee_member", committeeMemberId), ("committee_member_account", accountId),
       ("new_url", .optional .string), ("new_eth_address", .optional .string),
       ("new_btc_public_key", .optional .string)]
  | .committeeMemberUpdateGlobalParameters => [("new_parameters", chainParameters)]
  | .committeeMemberActivate => [("committee_to_activate", committeeMemberId)]
  | .committeeMemberDeactivate => [("committee_to_deactivate", committeeMemberId)]
  | .committeeFrozenBalanceDeposit =>
      [("committee_member", committeeMemberId), ("committee_member_account", accountId),
       ("amount", asset)]
  | .committeeFrozenBalanceWithdraw =>
      [("committee_member_account", accountId), ("amount", asset)]
  | .vestingBalanceCreate =>
      [("creator", accountId), ("owner", accountId), ("amount", asset),
       ("policy", vestingPolicyInitializer)]
  | .vestingBalanceWithdraw =>
      [("vesting_balance", protocolId .vestingBalance), ("owner", accountId), ("amount", asset)]
  | .balanceClaim =>
      [("deposit_to_account", accountId), ("balance_to_claim", protocolId .balance),
       ("balance_owner_key", publicKey config), ("total_claimed", asset)]
  | .balanceFreeze => [("account", accountId), ("amount", asset), ("duration", u16)]
  | .balanceUnfreeze => [("account", accountId), ("amount", asset)]
  | .contractCreate =>
      [("registrar", accountId), ("value", asset), ("code", .string), ("eth_accuracy", .bool),
       ("supported_asset_id", .optional assetId)]
  | .contractCall =>
      [("registrar", accountId), ("value", asset), ("code", .string), ("callee", contractId)]
  | .contractInternalCreate =>
      [("caller", .anyObjectId), ("new_contract", contractId), ("value", asset),
       ("eth_accuracy", .bool), ("supported_asset_id", .optional assetId)]
  | .contractInternalCall =>
      [("caller", .anyObjectId), ("callee", .anyObjectId), ("method", .string), ("value", asset)]
  | .contractSelfdestruct => [("contract", contractId), ("recipient", .anyObjectId)]
  | .contractUpdate =>
      [("sender", accountId), ("contract", contractId), ("new_owner", optionalAccount)]
  | .contractFundPool => [("sender", accountId), ("contract", contractId), ("amount", asset)]
  | .contractWhitelist =>
      [("sender", accountId), ("contract", contractId), ("add_to_whitelist", accountSet),
       ("remove_from_whitelist", accountSet), ("add_to_blacklist", accountSet),
       ("remove_from_blacklist", accountSet)]
  | .sidechainEthCreateAddress => [("account", accountId)]
  | .sidechainEthApproveAddress =>
      [("committee_member_id", accountId), ("malicious_committeemen", accountSet),
       ("account", accountId), ("eth_addr", ethAddress), ("transaction_hash", sha256)]
  | .sidechainEthDeposit =>
      [("committee_member_id", accountId), ("deposit_id", u64), ("account", accountId),
       ("value", u64), ("transaction_hash", sha256)]
  | .sidechainEthSendDeposit =>
      [("committee_member_id", accountId), ("deposit_id", protocolId .depositEth)]
  | .sidechainEthWithdraw => [("account", accountId), ("eth_addr", ethAddress), ("value", u64)]
  | .sidechainEthSendWithdraw =>
      [("committee_member_id", accountId), ("withdraw_id", protocolId .withdrawEth)]
  | .sidechainEthApproveWithdraw =>
      [("committee_member_id", accountId), ("withdraw_id", u64), ("transaction_hash", sha256)]
  | .sidechainEthUpdateContractAddress => [("new_addr", ethAddress)]
  | .sidechainIssue =>
      [("value", asset), ("account", accountId), ("deposit_id", protocolId .depositEth)]
  | .sidechainBurn =>
      [("value", asset), ("account", accountId), ("withdraw_id", protocolId .withdrawEth)]
  | .sidechainErc20RegisterToken =>
      [("account", accountId), ("eth_addr", ethAddress), ("name", .string), ("symbol", .string),
       ("decimals", u8)]
  | .sidechainErc20DepositToken =>
      [("committee_member_id", accountId), ("malicious_committeemen", accountSet),
       ("account", accountId), ("erc20_token_addr", .string), ("value", .string),
       ("transaction_hash", .string)]
  | .sidechainErc20SendDepositToken =>
      [("committee_member_id", accountId), ("deposit_id", protocolId .depositErc20Token)]
  | .sidechainErc20WithdrawToken =>
      [("account", accountId), ("to", ethAddress), ("erc20_token", protocolId .erc20Token),
       ("value", .string)]
  | .sidechainErc20SendWithdrawToken =>
      [("committee_member_id", accountId), ("withdraw_id", protocolId .withdrawErc20Token)]
  | .sidechainErc20ApproveTokenWithdraw =>
      [("committee_member_id", accountId), ("withdraw_id", u64), ("transaction_hash", .string)]
  | .sidechainErc20Issue =>
      [("deposit", protocolId .depositErc20Token), ("account", accountId),
       ("token", protocolId .erc20Token), ("amount", u64)]
  | .sidechainErc20Burn =>
      [("withdraw", protocolId .withdrawErc20Token), ("account", accountId),
       ("token", protocolId .erc20Token), ("amount", u64)]
  | .sidechainBtcCreateAddress => [("account", accountId), ("backup_address", .string)]
  | .sidechainBtcCreateIntermediateDeposit =>
      [("committee_member_id", accountId), ("account", accountId),
       ("btc_address_id", protocolId .btcAddress), ("tx_info", btcTransactionDetails)]
  | .sidechainBtcIntermediateDeposit =>
      [("committee_member_id", accountId),
       ("intermediate_address_id", protocolId .btcIntermediateDeposit), ("signature", .string)]
  | .sidechainBtcDeposit =>
      [("committee_member_id", accountId), ("account", accountId),
       ("intermediate_deposit_id", protocolId .btcIntermediateDeposit),
       ("tx_info", btcTransactionDetails)]
  | .sidechainBtcWithdraw => [("account", accountId), ("btc_addr", .string), ("value", u64)]
  | .sidechainBtcAggregate =>
      [("committee_member_id", accountId), ("transaction_id", sha256),
       ("deposits", .set (protocolId .btcDeposit)),
       ("withdrawals", .set (protocolId .btcWithdraw)), ("aggregation_out_value", u64),
       ("sma_address", .string), ("committee_member_ins", .map accountId .string),
       ("previous_aggregation", .optional (protocolId .btcAggregating)), ("cpfp_depth", u8),
       ("signatures", .map u32 .string)]
  | .sidechainBtcApproveAggregate =>
      [("committee_member_id", accountId), ("transaction_id", sha256)]
  | .blockReward => [("receivers", .map accountId u64)]
  | .evmAddressRegister => [("owner", accountId), ("evm_address", ethAddress)]

/-- All fields of an operation. -/
def fieldsOf (config : ChainConfig) (nested : Codec) (id : OperationId) : List (String × Codec) :=
  ("fee", asset) :: bodyOf config nested id ++ [("extensions", futureExtensions)]

/-- The operations of a chain by their ids. -/
def operationTable (registry : RegistryId) : CaseTable :=
  let nested := record [("op", nestedOperation registry)]
  OperationId.all.map fun id => (id.code, record (fieldsOf registry.config nested id))

end ChainCodec.Schema
