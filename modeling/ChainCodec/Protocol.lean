import ChainCodec.Codec.Normalize
import ChainCodec.Codec.Read
import ChainCodec.Codec.Render
import ChainCodec.Schema.Objects
import ChainCodec.Schema.Transactions

/-! # The protocol of a chain

    All codecs of one chain, built from its configuration, and the digests
    that identify and sign its transactions.

    Operations, transactions and blocks own the registry of their operations.
    The field schema of a single operation does not: it reaches operations
    inside it, if it has any, only as long as something else keeps the
    registry alive. -/

namespace ChainCodec

structure Protocol where
  config : ChainConfig := {}
  /-- Tells apart protocols of one configuration. -/
  serial : Nat := 0
  deriving DecidableEq, Repr

namespace Protocol

variable (p : Protocol)

def registry : RegistryId := ⟨p.config, p.serial⟩

/-! ## Operations -/

def operationLink : OperationLink where
  registry := p.registry
  owned := true
  feeAsset := p.config.coreAssetId
  zeroFee := false

def operation : Codec := .operation p.operationLink

/-- Operations whose fee may be left out, for estimating it. -/
def feeEstimatingOperation : Codec := .operation { p.operationLink with zeroFee := true }

/-- The fields of one operation. -/
def operationFields (id : OperationId) : Codec :=
  Codec.record
    (Schema.fieldsOf p.config (Codec.record [("op", Schema.nestedOperation p.registry)]) id)

/-! ## Transactions and blocks -/

def transaction : Codec := Schema.transaction p.operation

def feeEstimatingTransaction : Codec := Schema.transaction p.feeEstimatingOperation

def signedTransaction : Codec := Schema.signedTransaction p.operation

def processedTransaction : Codec := Schema.processedTransaction p.operation

def signedBlock : Codec := Schema.signedBlock p.operation

/-! ## Chain objects -/

/-- The schema of the object with an id, if its kind has one. -/
def chainObject? (id : ObjectId) : Option Codec :=
  match ReservedSpace.ofCode? id.space with
  | some .protocol =>
      match ProtocolType.ofCode? id.type with
      | some .account => some (Schema.accountObject p.config)
      | some .asset => some Schema.assetObject
      | some .balance => some (Schema.balanceObject p.config)
      | _ => none
  | some .implementation =>
      match ImplementationType.ofCode? id.type with
      | some .dynamicGlobalProperty => some Schema.dynamicGlobalPropertyObject
      | _ => none
  | _ => none

/-! ## Codecs by name -/

/-- Whole messages and objects. -/
def codecs : Record Codec :=
  [("operation", p.operation),
   ("operation_unrequired_fee", p.feeEstimatingOperation),
   ("transaction", p.transaction),
   ("transaction_unrequired_fee", p.feeEstimatingTransaction),
   ("signed_transaction", p.signedTransaction),
   ("processed_transaction", p.processedTransaction),
   ("operation_result", Schema.operationResult),
   ("block_header", Schema.blockHeader),
   ("signed_block", p.signedBlock),
   ("account_object", Schema.accountObject p.config),
   ("asset_object", Schema.assetObject),
   ("dynamic_global_property_object", Schema.dynamicGlobalPropertyObject),
   ("balance_object", Schema.balanceObject p.config)]

/-- The building blocks that the others share. -/
def sharedCodecs : Record Codec :=
  [("account_id", Schema.accountId),
   ("asset_id", Schema.assetId),
   ("contract_id", Schema.contractId),
   ("committee_member_id", Schema.committeeMemberId),
   ("public_key", Schema.publicKey p.config),
   ("echorand_key", Schema.echorandKey p.config),
   ("address", Schema.address p.config),
   ("eth_address", Schema.ethAddress),
   ("sha256", Schema.sha256),
   ("future_extensions", Schema.futureExtensions),
   ("asset", Schema.asset),
   ("price", Schema.price),
   ("price_feed", Schema.priceFeed),
   ("authority", Schema.authority p.config),
   ("account_options", Schema.accountOptions),
   ("asset_options", Schema.assetOptions),
   ("bitasset_options", Schema.bitassetOptions),
   ("vesting_policy_initializer", Schema.vestingPolicyInitializer),
   ("btc_transaction_details", Schema.btcTransactionDetails),
   ("fee_parameters", Schema.feeParameters),
   ("fee_schedule", Schema.feeSchedule),
   ("chain_parameters", Schema.chainParameters),
   ("optional_account", Schema.optionalAccount),
   ("account_set", Schema.accountSet)]

end Protocol

/-- Every protocol is set up and none of its owners is gone. -/
def Registries.live : Registries := fun id => .installed (Schema.operationTable id)

/-! ## Transaction digests -/

namespace Transaction

/-- The bytes that a signature commits to. -/
def signedBytes (chainId transaction : Bytes) : Bytes := chainId ++ transaction

def digest (chainId transaction : Bytes) : Bytes := Sha256.digest (signedBytes chainId transaction)

def id (transaction : Bytes) : String := Hex.encode ((Sha256.digest transaction).take 20)

end Transaction

end ChainCodec
