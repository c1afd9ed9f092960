/-! # Operation ids

    The operations of the chain in the order of their numbers, counted from
    zero. -/

namespace ChainCodec

/-- The kinds of operations. -/
inductive OperationId where
  | transfer
  | transferToAddress
  | overrideTransfer
  | accountCreate
  | accountUpdate
  | accountWhitelist
  | accountAddressCreate
  | assetCreate
  | assetUpdate
  | assetUpdateBitasset
  | assetUpdateFeedProducers
  | assetIssue
  | assetReserve
  | assetFundFeePool
  | assetPublishFeed
  | assetClaimFees
  | proposalCreate
  | proposalUpdate
  | proposalDelete
  | committeeMemberCreate
  | committeeMemberUpdate
  | committeeMemberUpdateGlobalParameters
  | committeeMemberActivate
  | committeeMemberDeactivate
  | committeeFrozenBalanceDeposit
  | committeeFrozenBalanceWithdraw
  | vestingBalanceCreate
  | vestingBalanceWithdraw
  | balanceClaim
  | balanceFreeze
  | balanceUnfreeze
  | contractCreate
  | contractCall
  | contractInternalCreate
  | contractInternalCall
  | contractSelfdestruct
  | contractUpdate
  | contractFundPool
  | contractWhitelist
  | sidechainEthCreateAddress
  | sidechainEthApproveAddress
  | sidechainEthDeposit
  | sidechainEthSendDeposit
  | sidechainEthWithdraw
  | sidechainEthSendWithdraw
  | sidechainEthApproveWithdraw
  | sidechainEthUpdateContractAddress
  | sidechainIssue
  | sidechainBurn
  | sidechainErc20RegisterToken
  | sidechainErc20DepositToken
  | sidechainErc20SendDepositToken
  | sidechainErc20WithdrawToken
  | sidechainErc20SendWithdrawToken
  | sidechainErc20ApproveTokenWithdraw
  | sidechainErc20Issue
  | sidechainErc20Burn
  | sidechainBtcCreateAddress
  | sidechainBtcCreateIntermediateDeposit
  | sidechainBtcIntermediateDeposit
  | sidechainBtcDeposit
  | sidechainBtcWithdraw
  | sidechainBtcAggregate
  | sidechainBtcApproveAggregate
  | blockReward
  | evmAddressRegister
  deriving DecidableEq, Repr

namespace OperationId

/-- The operations with the names that the chain has for them. -/
def table : List (OperationId × String) :=
  [(.transfer, "TRANSFER"),
   (.transferToAddress, "TRANSFER_TO_ADDRESS"),
   (.overrideTransfer, "OVERRIDE_TRANSFER"),
   (.accountCreate, "ACCOUNT_CREATE"),
   (.accountUpdate, "ACCOUNT_UPDATE"),
   (.accountWhitelist, "ACCOUNT_WHITELIST"),
   (.accountAddressCreate, "ACCOUNT_ADDRESS_CREATE"),
   (.assetCreate, "ASSET_CREATE"),
   (.assetUpdate, "ASSET_UPDATE"),
   (.assetUpdateBitasset, "ASSET_UPDATE_BITASSET"),
   (.assetUpdateFeedProducers, "ASSET_UPDATE_FEED_PRODUCERS"),
   (.assetIssue, "ASSET_ISSUE"),
   (.assetReserve, "ASSET_RESERVE"),
   (.assetFundFeePool, "ASSET_FUND_FEE_POOL"),
   (.assetPublishFeed, "ASSET_PUBLISH_FEED"),
   (.assetClaimFees, "ASSET_CLAIM_FEES"),
   (.proposalCreate, "PROPOSAL_CREATE"),
   (.proposalUpdate, "PROPOSAL_UPDATE"),
   (.proposalDelete, "PROPOSAL_DELETE"),
   (.committeeMemberCreate, "COMMITTEE_MEMBER_CREATE"),
   (.committeeMemberUpdate, "COMMITTEE_MEMBER_UPDATE"),
   (.committeeMemberUpdateGlobalParameters, "COMMITTEE_MEMBER_UPDATE_GLOBAL_PARAMETERS"),
   (.committeeMemberActivate, "COMMITTEE_MEMBER_ACTIVATE"),
   (.committeeMemberDeactivate, "COMMITTEE_MEMBER_DEACTIVATE"),
   (.committeeFrozenBalanceDeposit, "COMMITTEE_FROZEN_BALANCE_DEPOSIT"),
   (.committeeFrozenBalanceWithdraw, "COMMITTEE_FROZEN_BALANCE_WITHDRAW"),
   (.vestingBalanceCreate, "VESTING_BALANCE_CREATE"),
   (.vestingBalanceWithdraw, "VESTING_BALANCE_WITHDRAW"),
   (.balanceClaim, "BALANCE_CLAIM"),
   (.balanceFreeze, "BALANCE_FREEZE"),
   (.balanceUnfreeze, "BALANCE_UNFREEZE"),
   (.contractCreate, "CONTRACT_CREATE"),
   (.contractCall, "CONTRACT_CALL"),
   (.contractInternalCreate, "CONTRACT_INTERNAL_CREATE"),
   (.contractInternalCall, "CONTRACT_INTERNAL_CALL"),
   (.contractSelfdestruct, "CONTRACT_SELFDESTRUCT"),
   (.contractUpdate, "CONTRACT_UPDATE"),
   (.contractFundPool, "CONTRACT_FUND_POOL"),
   (.contractWhitelist, "CONTRACT_WHITELIST"),
   (.sidechainEthCreateAddress, "SIDECHAIN_ETH_CREATE_ADDRESS"),
   (.sidechainEthApproveAddress, "SIDECHAIN_ETH_APPROVE_ADDRESS"),
   (.sidechainEthDeposit, "SIDECHAIN_ETH_DEPOSIT"),
   (.sidechainEthSendDeposit, "SIDECHAIN_ETH_SEND_DEPOSIT"),
   (.sidechainEthWithdraw, "SIDECHAIN_ETH_WITHDRAW"),
   (.sidechainEthSendWithdraw, "SIDECHAIN_ETH_SEND_WITHDRAW"),
   (.sidechainEthApproveWithdraw, "SIDECHAIN_ETH_APPROVE_WITHDRAW"),
   (.sidechainEthUpdateContractAddress, "SIDECHAIN_ETH_UPDATE_CONTRACT_ADDRESS"),
   (.sidechainIssue, "SIDECHAIN_ISSUE"),
   (.sidechainBurn, "SIDECHAIN_BURN"),
   (.sidechainErc20RegisterToken, "SIDECHAIN_ERC20_REGISTER_TOKEN"),
   (.sidechainErc20DepositToken, "SIDECHAIN_ERC20_DEPOSIT_TOKEN"),
   (.sidechainErc20SendDepositToken, "SIDECHAIN_ERC20_SEND_DEPOSIT_TOKEN"),
   (.sidechainErc20WithdrawToken, "SIDECHAIN_ERC20_WITHDRAW_TOKEN"),
   (.sidechainErc20SendWithdrawToken, "SIDECHAIN_ERC20_SEND_WITHDRAW_TOKEN"),
   (.sidechainErc20ApproveTokenWithdraw, "SIDECHAIN_ERC20_APPROVE_TOKEN_WITHDRAW"),
   (.sidechainErc20Issue, "SIDECHAIN_ERC20_ISSUE"),
   (.sidechainErc20Burn, "SIDECHAIN_ERC20_BURN"),
   (.sidechainBtcCreateAddress, "SIDECHAIN_BTC_CREATE_ADDRESS"),
   (.sidechainBtcCreateIntermediateDeposit, "SIDECHAIN_BTC_CREATE_INTERMEDIATE_DEPOSIT"),
   (.sidechainBtcIntermediateDeposit, "SIDECHAIN_BTC_INTERMEDIATE_DEPOSIT"),
   (.sidechainBtcDeposit, "SIDECHAIN_BTC_DEPOSIT"),
   (.sidechainBtcWithdraw, "SIDECHAIN_BTC_WITHDRAW"),
   (.sidechainBtcAggregate, "SIDECHAIN_BTC_AGGREGATE"),
   (.sidechainBtcApproveAggregate, "SIDECHAIN_BTC_APPROVE_AGGREGATE"),
   (.blockReward, "BLOCK_REWARD"),
   (.evmAddressRegister, "EVM_ADDRESS_REGISTER")]

def all : List OperationId := table.map Prod.fst

def count : Nat := table.length

/-- The number that stands for an operation on the wire. -/
def code (id : OperationId) : UInt32 := UInt32.ofNat id.ctorIdx

def ofCode? (n : UInt32) : Option OperationId := table[n.toNat]?.map Prod.fst

def name (id : OperationId) : String := (table.lookup id).getD ""

end OperationId

end ChainCodec
