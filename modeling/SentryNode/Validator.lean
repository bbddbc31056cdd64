import Mathlib.Algebra.Ring.Nat
import Mathlib.Logic.Basic
import SentryNode.Primitives

/-!
# The stateless validator

The checks that a pooled transaction passes without any chain state, in the order of the code, each
with the text of its error. Seven of them are consensus rules; that the transaction is no contract
creation and that its gas limit is at most the configured maximum are policies of this node.
`validateStateless_eq_ok_iff` states what is accepted, in integer arithmetic: the product of a gas
limit and a fee never wraps in 256 bits. `validateTransaction_exact` is the same of the outcome.

Every error is reported as that of a bad transaction, for which the network layer penalises the
peer. `honest_punished_iff` says when this happens to a transaction that keeps the consensus rules:
when it breaks one of the two policies.
-/

set_option autoImplicit false
set_option relaxedAutoImplicit false

namespace SentryNode

/-! ### Transactions and configurations -/

/-- An account address, `FixedBytes<20>`. -/
structure Address where
  bytes : List UInt8
  length_bytes : bytes.length = 20
deriving DecidableEq

/-- The address made of one byte repeated. -/
def Address.repeatByte (byte : UInt8) : Address := ⟨List.replicate 20 byte, List.length_replicate⟩

/-- `Address::ZERO`. -/
def Address.zero : Address := .repeatByte 0

/-- What a transaction does: it creates a contract, or calls an address. -/
inductive TxKind
  | create
  | call (recipient : Address)
deriving DecidableEq

/-- A pooled transaction with its recovered sender: the fields the validator reads, and the `rest`.
A transaction without a priority fee has its gas price as maximum fee. -/
structure Transaction (Rest : Type*) where
  sender : Address
  kind : TxKind
  chainId : Option UInt64
  nonce : UInt64
  gasLimit : UInt64
  maxFeePerGas : BitVec 128
  maxPriorityFeePerGas : Option (BitVec 128)
  value : BitVec 256
  rest : Rest
deriving DecidableEq

/-- Maximum gas limit for a single transaction (30M). -/
def maxTxGasLimit : UInt64 := 30000000

/-- Minimum gas limit for any transaction (intrinsic gas for a transfer). -/
def minTxGasLimit : UInt64 := 21000

/-- Configuration for the stateless validator. -/
structure StatelessValidatorConfig where
  chainId : UInt64
  maxTxGasLimit : UInt64

/-- The configuration of a node where nothing else is said. -/
def StatelessValidatorConfig.default : StatelessValidatorConfig where
  chainId := 1
  maxTxGasLimit := SentryNode.maxTxGasLimit

variable {Rest : Type*}

def Transaction.isCreate (tx : Transaction Rest) : Bool := tx.kind = .create

/-! ### The checks -/

/-- A check that fails with a reason. -/
def rejectIf (condition : Prop) [Decidable condition] (reason : String) : Except String Unit :=
  if condition then .error reason else .ok ()

/-- Addition of 256-bit integers, none on overflow. -/
def checkedAdd (first second : BitVec 256) : Option (BitVec 256) :=
  if first.uaddOverflow second then none else some (first + second)

section Checks

variable (config : StatelessValidatorConfig) (tx : Transaction Rest)

/-- Reject contract creation transactions. -/
def checkKind : Except String Unit :=
  rejectIf tx.isCreate "contract creation transactions are not allowed"

/-- Chain ID check. -/
def checkChainId : Except String Unit :=
  match tx.chainId with
  | some txChainId =>
    rejectIf (txChainId ≠ config.chainId)
      ("wrong chain ID: expected " ++ toString config.chainId ++ ", got " ++ toString txChainId)
  | none => .ok ()

/-- Gas limit bounds. -/
def checkGasLimit : Except String Unit := do
  rejectIf (tx.gasLimit < minTxGasLimit)
    ("gas limit too low: " ++ toString tx.gasLimit ++ " < " ++ toString minTxGasLimit)
  rejectIf (tx.gasLimit > config.maxTxGasLimit)
    ("gas limit too high: " ++ toString tx.gasLimit ++ " > " ++ toString config.maxTxGasLimit)

/-- The priority fee is at most the maximum fee. -/
def checkPriorityFee : Except String Unit :=
  match tx.maxPriorityFeePerGas with
  | some maxPriorityFee =>
    rejectIf (maxPriorityFee > tx.maxFeePerGas)
      ("maxPriorityFeePerGas (" ++ toString maxPriorityFee.toNat ++ ") > maxFeePerGas (" ++
        toString tx.maxFeePerGas.toNat ++ ")")
  | none => .ok ()

/-- The gas price must be non-zero. -/
def checkGasPrice : Except String Unit := rejectIf (tx.maxFeePerGas = 0) "gas price is zero"

/-- The cost of the gas, as the code multiplies it: in 256 bits, wrapping. -/
def maxGasCost : BitVec 256 := tx.gasLimit.toBitVec.setWidth 256 * tx.maxFeePerGas.setWidth 256

/-- Value and gas cost do not overflow. -/
def checkCost : Except String Unit :=
  rejectIf ((checkedAdd tx.value (maxGasCost tx)).isNone) "value + gas cost overflows U256"

/-- The signer must not be the zero address. -/
def checkSigner : Except String Unit := rejectIf (tx.sender = .zero) "signer is zero address"

/-- The nonce must not be `u64::MAX`. -/
def checkNonce : Except String Unit := rejectIf (tx.nonce = .ofNat (2 ^ 64 - 1)) "nonce is u64::MAX"

def validateStateless : Except String Unit := do
  checkKind tx
  checkChainId config tx
  checkGasLimit config tx
  checkPriorityFee tx
  checkGasPrice tx
  checkCost tx
  checkSigner tx
  checkNonce tx

end Checks

/-! ### The outcome -/

/-- The error of a failed validation. -/
structure StatelessValidationError where
  reason : String
deriving DecidableEq

/-- Whether the peer that sent the transaction is to be penalised. -/
def StatelessValidationError.isBadTransaction (_ : StatelessValidationError) : Bool := true

/-- The outcome of a validation, for the transaction pool. -/
inductive TransactionValidationOutcome (Rest : Type*)
  | valid (balance : BitVec 256) (stateNonce : UInt64) (bytecodeHash : Option B256)
      (transaction : Transaction Rest) (propagate : Bool) (authorities : Option (List Address))
  | invalid (transaction : Transaction Rest) (error : StatelessValidationError)
deriving DecidableEq

def validateTransaction (config : StatelessValidatorConfig) (transaction : Transaction Rest) :
    TransactionValidationOutcome Rest :=
  match validateStateless config transaction with
  | .ok () => .valid (.allOnes 256) transaction.nonce none transaction true none
  | .error reason => .invalid transaction { reason }

/-- The transaction is accepted. -/
def TransactionValidationOutcome.IsValid : TransactionValidationOutcome Rest → Prop
  | .valid .. => True
  | .invalid .. => False

/-- The outcome makes the network layer penalise the peer that sent the transaction. -/
def TransactionValidationOutcome.Punishes : TransactionValidationOutcome Rest → Prop
  | .valid .. => False
  | .invalid _ error => error.isBadTransaction = true

/-! ### What each check accepts -/

@[simp] theorem rejectIf_eq_ok_iff {condition : Prop} [Decidable condition] {reason : String} :
    rejectIf condition reason = .ok () ↔ ¬ condition := by
  unfold rejectIf
  by_cases hcondition : condition
  · rw [if_pos hcondition]
    exact iff_of_false (by rintro ⟨⟩) (not_not.mpr hcondition)
  · rw [if_neg hcondition]
    exact iff_of_true rfl hcondition

@[simp] theorem bind_eq_ok_iff {first second : Except String Unit} :
    (do first; second) = .ok () ↔ first = .ok () ∧ second = .ok () := by
  cases first with
  | error reason => exact iff_of_false (by rintro ⟨⟩) (by rintro ⟨⟨⟩, -⟩)
  | ok => exact (and_iff_right rfl).symm

theorem checkedAdd_isNone_iff (first second : BitVec 256) :
    (checkedAdd first second).isNone ↔ 2 ^ 256 ≤ first.toNat + second.toNat := by
  unfold checkedAdd
  by_cases hoverflow : first.uaddOverflow second
  · rw [if_pos hoverflow]
    exact iff_of_true rfl (of_decide_eq_true hoverflow)
  · rw [if_neg hoverflow]
    refine iff_of_false Bool.false_ne_true fun hle ↦ hoverflow (decide_eq_true hle)

/-- The product of a 64-bit gas limit and a 128-bit fee does not wrap in 256 bits. -/
theorem toNat_maxGasCost (tx : Transaction Rest) :
    (maxGasCost tx).toNat = tx.gasLimit.toNat * tx.maxFeePerGas.toNat := by
  have hproduct : tx.gasLimit.toNat * tx.maxFeePerGas.toNat < 2 ^ 64 * 2 ^ 128 :=
    Nat.mul_lt_mul'' tx.gasLimit.toNat_lt tx.maxFeePerGas.isLt
  unfold maxGasCost
  rw [BitVec.toNat_mul, BitVec.toNat_setWidth_of_le (by decide),
    BitVec.toNat_setWidth_of_le (by decide)]
  exact Nat.mod_eq_of_lt (Nat.lt_trans hproduct (by decide))

/-- The rules that a transaction keeps on a chain without any state. The gas limit is at least that
of a transfer, as every intrinsic minimum is. -/
structure KeepsStatelessRules (chainId : UInt64) (tx : Transaction Rest) : Prop where
  chainId : ∀ txChainId ∈ tx.chainId, txChainId = chainId
  gasLimit : 21000 ≤ tx.gasLimit.toNat
  priorityFee : ∀ fee ∈ tx.maxPriorityFeePerGas, fee.toNat ≤ tx.maxFeePerGas.toNat
  maxFee : 0 < tx.maxFeePerGas.toNat
  cost : tx.value.toNat + tx.gasLimit.toNat * tx.maxFeePerGas.toNat < 2 ^ 256
  signer : tx.sender ≠ .zero
  nonce : tx.nonce.toNat < 2 ^ 64 - 1

section Accepts

variable (config : StatelessValidatorConfig) (tx : Transaction Rest)

theorem checkKind_eq_ok_iff : checkKind tx = .ok () ↔ tx.kind ≠ .create := by
  rw [checkKind, rejectIf_eq_ok_iff, Transaction.isCreate, decide_eq_true_iff]

theorem checkChainId_eq_ok_iff :
    checkChainId config tx = .ok () ↔ ∀ txChainId ∈ tx.chainId, txChainId = config.chainId := by
  unfold checkChainId
  cases tx.chainId with
  | none => simp
  | some txChainId => simp

theorem checkGasLimit_eq_ok_iff : checkGasLimit config tx = .ok () ↔
    21000 ≤ tx.gasLimit.toNat ∧ tx.gasLimit.toNat ≤ config.maxTxGasLimit.toNat := by
  rw [checkGasLimit, bind_eq_ok_iff, rejectIf_eq_ok_iff, rejectIf_eq_ok_iff, UInt64.lt_iff_toNat_lt,
    gt_iff_lt, UInt64.lt_iff_toNat_lt, Nat.not_lt, Nat.not_lt]
  rfl

theorem checkPriorityFee_eq_ok_iff : checkPriorityFee tx = .ok () ↔
    ∀ fee ∈ tx.maxPriorityFeePerGas, fee.toNat ≤ tx.maxFeePerGas.toNat := by
  unfold checkPriorityFee
  cases tx.maxPriorityFeePerGas with
  | none => simp
  | some maxPriorityFee => simp [BitVec.le_def]

theorem checkGasPrice_eq_ok_iff : checkGasPrice tx = .ok () ↔ 0 < tx.maxFeePerGas.toNat := by
  rw [checkGasPrice, rejectIf_eq_ok_iff, Nat.pos_iff_ne_zero, ← BitVec.toNat_inj]
  rfl

theorem checkCost_eq_ok_iff : checkCost tx = .ok () ↔
    tx.value.toNat + tx.gasLimit.toNat * tx.maxFeePerGas.toNat < 2 ^ 256 := by
  rw [checkCost, rejectIf_eq_ok_iff, checkedAdd_isNone_iff, toNat_maxGasCost, Nat.not_le]

theorem checkSigner_eq_ok_iff : checkSigner tx = .ok () ↔ tx.sender ≠ .zero := by
  rw [checkSigner, rejectIf_eq_ok_iff]

theorem checkNonce_eq_ok_iff : checkNonce tx = .ok () ↔ tx.nonce.toNat < 2 ^ 64 - 1 := by
  have hlt := tx.nonce.toNat_lt
  rw [checkNonce, rejectIf_eq_ok_iff, ← UInt64.toNat_inj, UInt64.toNat_ofNat']
  omega

/-- What the validator accepts: the transactions that keep the rules of the configured chain, create
no contract and stay within the configured gas limit. -/
theorem validateStateless_eq_ok_iff : validateStateless config tx = .ok () ↔
    KeepsStatelessRules config.chainId tx ∧ tx.kind ≠ .create ∧
      tx.gasLimit.toNat ≤ config.maxTxGasLimit.toNat := by
  simp only [validateStateless, bind_eq_ok_iff, checkKind_eq_ok_iff, checkChainId_eq_ok_iff,
    checkGasLimit_eq_ok_iff, checkPriorityFee_eq_ok_iff, checkGasPrice_eq_ok_iff,
    checkCost_eq_ok_iff, checkSigner_eq_ok_iff, checkNonce_eq_ok_iff]
  constructor
  · rintro ⟨hkind, hchain, ⟨hlow, hhigh⟩, hpriority, hprice, hcost, hsigner, hnonce⟩
    exact ⟨⟨hchain, hlow, hpriority, hprice, hcost, hsigner, hnonce⟩, hkind, hhigh⟩
  · rintro ⟨⟨hchain, hlow, hpriority, hprice, hcost, hsigner, hnonce⟩, hkind, hhigh⟩
    exact ⟨hkind, hchain, ⟨hlow, hhigh⟩, hpriority, hprice, hcost, hsigner, hnonce⟩

end Accepts

/-! ### Outcomes -/

section Outcome

variable (config : StatelessValidatorConfig) (tx : Transaction Rest)

theorem validateTransaction_of_ok (hok : validateStateless config tx = .ok ()) :
    validateTransaction config tx = .valid (.allOnes 256) tx.nonce none tx true none := by
  rw [validateTransaction, hok]

theorem exists_validateTransaction_of_not_ok (hok : validateStateless config tx ≠ .ok ()) :
    ∃ error, validateTransaction config tx = .invalid tx error := by
  unfold validateTransaction
  cases hchecks : validateStateless config tx with
  | ok => exact absurd hchecks hok
  | error reason => exact ⟨{ reason }, rfl⟩

theorem isValid_validateTransaction_iff :
    (validateTransaction config tx).IsValid ↔ validateStateless config tx = .ok () := by
  by_cases hok : validateStateless config tx = .ok ()
  · rw [validateTransaction_of_ok config tx hok]
    exact iff_of_true trivial hok
  · obtain ⟨error, houtcome⟩ := exists_validateTransaction_of_not_ok config tx hok
    rw [houtcome]
    exact iff_of_false id hok

/-- Exactly what the validator accepts, in integer arithmetic, for every configuration and every
transaction: one that keeps the rules of the configured chain, creates no contract and stays within
the configured gas limit. Any other is returned unchanged with an error. The product of its gas
limit and its fee is that of the integers. -/
theorem validateTransaction_exact :
    ((validateTransaction config tx).IsValid ↔
      KeepsStatelessRules config.chainId tx ∧ tx.kind ≠ .create ∧
        tx.gasLimit.toNat ≤ config.maxTxGasLimit.toNat) ∧
      (¬ (validateTransaction config tx).IsValid →
        ∃ error, validateTransaction config tx = .invalid tx error) ∧
      (maxGasCost tx).toNat = tx.gasLimit.toNat * tx.maxFeePerGas.toNat := by
  rw [isValid_validateTransaction_iff]
  exact ⟨validateStateless_eq_ok_iff config tx, exists_validateTransaction_of_not_ok config tx,
    toNat_maxGasCost tx⟩

end Outcome

/-! ### Penalties -/

/-- A rejection always penalises the peer. -/
theorem punishes_validateTransaction_iff (config : StatelessValidatorConfig)
    (tx : Transaction Rest) :
    (validateTransaction config tx).Punishes ↔ validateStateless config tx ≠ .ok () := by
  unfold validateTransaction
  cases validateStateless config tx with
  | ok => exact iff_of_false id (not_not.mpr rfl)
  | error reason => exact iff_of_true rfl (by rintro ⟨⟩)

/-- When honest gossip is punished. Assumes: a transaction that keeps the rules of the configured
chain. The peer that sent it is penalised exactly when the transaction creates a contract or its gas
limit is above the configured maximum. -/
theorem honest_punished_iff (config : StatelessValidatorConfig) (tx : Transaction Rest)
    (hrules : KeepsStatelessRules config.chainId tx) :
    (validateTransaction config tx).Punishes ↔
      tx.kind = .create ∨ config.maxTxGasLimit.toNat < tx.gasLimit.toNat := by
  rw [punishes_validateTransaction_iff, ne_eq, validateStateless_eq_ok_iff, and_iff_right hrules,
    not_and_or, ne_eq, not_not, Nat.not_le]

/-- A transfer on mainnet. -/
theorem transfer_not_punished :
    let transfer : Transaction Unit :=
      { sender := .repeatByte 1, kind := .call (.repeatByte 2), chainId := some 1, nonce := 0,
        gasLimit := 21000, maxFeePerGas := 2, maxPriorityFeePerGas := some 1, value := 1,
        rest := () }
    KeepsStatelessRules 1 transfer ∧ ¬ (validateTransaction .default transfer).Punishes := by
  intro transfer
  have hrules : KeepsStatelessRules 1 transfer := {
    chainId := by
      rintro txChainId ⟨⟩
      rfl
    gasLimit := Nat.le_refl 21000
    priorityFee := by
      rintro fee ⟨⟩
      decide
    maxFee := by decide
    cost := by
      show 1 + 21000 * 2 < 2 ^ 256
      omega
    signer := by decide
    nonce := by decide }
  refine ⟨hrules, mt (honest_punished_iff .default transfer hrules).mp ?_⟩
  rintro (hcreate | hhigh)
  · cases hcreate
  · have hlow : transfer.gasLimit.toNat < StatelessValidatorConfig.default.maxTxGasLimit.toNat := by
      show 21000 < 30000000
      omega
    exact absurd hhigh (Nat.lt_asymm hlow)

/-- A contract creation and a call with 36 million gas on mainnet: both keep the rules, and the peer
is penalised for each. -/
theorem policies_punish_honest :
    let creation : Transaction Unit :=
      { sender := .repeatByte 1, kind := .create, chainId := some 1, nonce := 0,
        gasLimit := 1000000, maxFeePerGas := 2, maxPriorityFeePerGas := none, value := 0,
        rest := () }
    let call : Transaction Unit :=
      { creation with kind := .call (.repeatByte 2), gasLimit := 36000000 }
    (KeepsStatelessRules 1 creation ∧ (validateTransaction .default creation).Punishes) ∧
      KeepsStatelessRules 1 call ∧ (validateTransaction .default call).Punishes := by
  intro creation call
  have hcreation : KeepsStatelessRules 1 creation := {
    chainId := by
      rintro txChainId ⟨⟩
      rfl
    gasLimit := by
      show 21000 ≤ 1000000
      omega
    priorityFee := by rintro fee ⟨⟩
    maxFee := by decide
    cost := by
      show 0 + 1000000 * 2 < 2 ^ 256
      omega
    signer := by decide
    nonce := by decide }
  have hcall : KeepsStatelessRules 1 call := { hcreation with
    gasLimit := by
      show 21000 ≤ 36000000
      omega
    cost := by
      show 0 + 36000000 * 2 < 2 ^ 256
      omega }
  refine ⟨⟨hcreation, ?_⟩, hcall, ?_⟩
  · rw [punishes_validateTransaction_iff, ne_eq, validateStateless_eq_ok_iff]
    exact fun hok ↦ hok.2.1 rfl
  · rw [punishes_validateTransaction_iff, ne_eq, validateStateless_eq_ok_iff]
    rintro ⟨-, -, hhigh⟩
    have hover : StatelessValidatorConfig.default.maxTxGasLimit.toNat < call.gasLimit.toNat := by
      show 30000000 < 36000000
      omega
    exact absurd hhigh (Nat.not_le_of_lt hover)

end SentryNode
