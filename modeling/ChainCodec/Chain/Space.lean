/-! # Object spaces and object types

    Every object of the chain lives in a reserved space and has a type there.
    The numbers are fixed by the chain: each enumeration lists its members in
    the order of their numbers, counted from zero. -/

namespace ChainCodec

/-! ## Spaces -/

/-- The spaces that objects live in. -/
inductive ReservedSpace where
  | relative
  | protocol
  | implementation
  deriving DecidableEq, Repr

namespace ReservedSpace

def table : List (ReservedSpace × String) :=
  [(.relative, "Relative"),
   (.protocol, "Protocol"),
   (.implementation, "Implementation")]

def code (s : ReservedSpace) : UInt8 := UInt8.ofNat s.ctorIdx

def ofCode? (n : UInt8) : Option ReservedSpace := table[n.toNat]?.map Prod.fst

def name (s : ReservedSpace) : String := (table.lookup s).getD ""

end ReservedSpace

/-! ## Types of the protocol space -/

/-- What users act on: accounts, assets, contracts and what they leave behind. -/
inductive ProtocolType where
  | null
  | base
  | account
  | asset
  | committeeMember
  | proposal
  | operationHistory
  | vestingBalance
  | balance
  | frozenBalance
  | contract
  | contractResult
  | blockResult
  | ethAddress
  | depositEth
  | withdrawEth
  | erc20Token
  | depositErc20Token
  | withdrawErc20Token
  | btcAddress
  | btcIntermediateDeposit
  | btcDeposit
  | btcWithdraw
  | btcAggregating
  | evmAddress
  deriving DecidableEq, Repr

namespace ProtocolType

def table : List (ProtocolType × String) :=
  [(.null, "NULL"),
   (.base, "BASE"),
   (.account, "ACCOUNT"),
   (.asset, "ASSET"),
   (.committeeMember, "COMMITTEE_MEMBER"),
   (.proposal, "PROPOSAL"),
   (.operationHistory, "OPERATION_HISTORY"),
   (.vestingBalance, "VESTING_BALANCE"),
   (.balance, "BALANCE"),
   (.frozenBalance, "FROZEN_BALANCE"),
   (.contract, "CONTRACT"),
   (.contractResult, "CONTRACT_RESULT"),
   (.blockResult, "BLOCK_RESULT"),
   (.ethAddress, "ETH_ADDRESS"),
   (.depositEth, "DEPOSIT_ETH"),
   (.withdrawEth, "WITHDRAW_ETH"),
   (.erc20Token, "ERC20_TOKEN"),
   (.depositErc20Token, "DEPOSIT_ERC20_TOKEN"),
   (.withdrawErc20Token, "WITHDRAW_ERC20_TOKEN"),
   (.btcAddress, "BTC_ADDRESS"),
   (.btcIntermediateDeposit, "BTC_INTERMEDIATE_DEPOSIT"),
   (.btcDeposit, "BTC_DEPOSIT"),
   (.btcWithdraw, "BTC_WITHDRAW"),
   (.btcAggregating, "BTC_AGGREGATING"),
   (.evmAddress, "EVM_ADDRESS")]

def code (t : ProtocolType) : UInt8 := UInt8.ofNat t.ctorIdx

def ofCode? (n : UInt8) : Option ProtocolType := table[n.toNat]?.map Prod.fst

def name (t : ProtocolType) : String := (table.lookup t).getD ""

end ProtocolType

/-! ## Types of the implementation space -/

/-- What a node keeps beside that, for its own purposes. -/
inductive ImplementationType where
  | globalProperty
  | dynamicGlobalProperty
  | assetDynamicData
  | assetBitassetData
  | accountBalance
  | accountStatistics
  | transaction
  | blockSummary
  | accountTransactionHistory
  | chainProperty
  | specialAuthority
  | contractBalance
  | contractHistory
  | contractStatistics
  | accountAddress
  | contractPool
  | maliciousCommitteemen
  | btcBlock
  deriving DecidableEq, Repr

namespace ImplementationType

def table : List (ImplementationType × String) :=
  [(.globalProperty, "GLOBAL_PROPERTY"),
   (.dynamicGlobalProperty, "DYNAMIC_GLOBAL_PROPERTY"),
   (.assetDynamicData, "ASSET_DYNAMIC_DATA"),
   (.assetBitassetData, "ASSET_BITASSET_DATA"),
   (.accountBalance, "ACCOUNT_BALANCE"),
   (.accountStatistics, "ACCOUNT_STATISTICS"),
   (.transaction, "TRANSACTION"),
   (.blockSummary, "BLOCK_SUMMARY"),
   (.accountTransactionHistory, "ACCOUNT_TRANSACTION_HISTORY"),
   (.chainProperty, "CHAIN_PROPERTY"),
   (.specialAuthority, "SPECIAL_AUTHORITY"),
   (.contractBalance, "CONTRACT_BALANCE"),
   (.contractHistory, "CONTRACT_HISTORY"),
   (.contractStatistics, "CONTRACT_STATISTICS"),
   (.accountAddress, "ACCOUNT_ADDRESS"),
   (.contractPool, "CONTRACT_POOL"),
   (.maliciousCommitteemen, "MALICIOUS_COMMITTEEMEN"),
   (.btcBlock, "BTC_BLOCK")]

def code (t : ImplementationType) : UInt8 := UInt8.ofNat t.ctorIdx

def ofCode? (n : UInt8) : Option ImplementationType := table[n.toNat]?.map Prod.fst

def name (t : ImplementationType) : String := (table.lookup t).getD ""

end ImplementationType

end ChainCodec
