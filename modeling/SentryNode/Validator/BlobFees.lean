import SentryNode.Validator

/-!
# What an accepted transaction can cost

The overflow check of the validator adds the value and the cost of the gas. A sender can be charged
one more amount, by an EIP-4844 transaction only: the fee of its blobs. No check reads the blobs or
their maximum fee, so a transaction is accepted with any blobs if with one. What can be charged is
then below `2 ^ 256` for every other type, and for an EIP-4844 transaction below `2 ^ 256` and the
fee of its blobs (`fullCost_of_accepted`).
-/

set_option autoImplicit false
set_option relaxedAutoImplicit false

namespace SentryNode

/-- The fields of a transaction that depend on its type and that the validator does not read. -/
inductive TypedFields (Rest : Type*)
  | legacy (rest : Rest)
  | eip2930 (rest : Rest)
  | eip1559 (rest : Rest)
  | eip4844 (blobVersionedHashes : List B256) (maxFeePerBlobGas : BitVec 128) (rest : Rest)
  | eip7702 (rest : Rest)
deriving DecidableEq

/-- The gas of one blob. -/
def dataGasPerBlob : ℕ := 2 ^ 17

namespace TypedFields

variable {Rest : Type*}

/-- The transaction carries blobs. -/
def isEip4844 : TypedFields Rest → Bool
  | eip4844 .. => true
  | _ => false

/-- The gas of all blobs. -/
def blobGasUsed : TypedFields Rest → ℕ
  | eip4844 blobVersionedHashes _ _ => dataGasPerBlob * blobVersionedHashes.length
  | _ => 0

/-- The most that is paid for one unit of it. -/
def maxFeePerBlobGas : TypedFields Rest → ℕ
  | eip4844 _ maxFeePerBlobGas _ => maxFeePerBlobGas.toNat
  | _ => 0

/-- The most that is paid for the blobs. -/
def blobCost (fields : TypedFields Rest) : ℕ := fields.blobGasUsed * fields.maxFeePerBlobGas

theorem blobCost_eq_zero {fields : TypedFields Rest} (hfields : fields.isEip4844 = false) :
    fields.blobCost = 0 := by
  cases fields with
  | eip4844 => cases hfields
  | legacy | eip2930 | eip1559 | eip7702 => rfl

end TypedFields

section Cost

variable {Rest : Type*}

/-- All that the sender of a transaction can be charged. -/
def fullCost (tx : Transaction (TypedFields Rest)) : ℕ :=
  tx.value.toNat + tx.gasLimit.toNat * tx.maxFeePerGas.toNat + tx.rest.blobCost

/-- The checks read none of the fields that depend on the type. -/
theorem validateStateless_with_rest (config : StatelessValidatorConfig) (tx : Transaction Rest)
    (other : Rest) :
    validateStateless config { tx with rest := other } = validateStateless config tx := rfl

/-- What can be charged for an accepted transaction. The value and the cost of the gas are below
`2 ^ 256`, and so is all of it unless there are blobs. The blobs play no part: the same transaction
is accepted with any others. -/
theorem fullCost_of_accepted (config : StatelessValidatorConfig)
    (tx : Transaction (TypedFields Rest)) (haccepted : validateStateless config tx = .ok ()) :
    fullCost tx < 2 ^ 256 + tx.rest.blobCost ∧
      (tx.rest.isEip4844 = false → fullCost tx < 2 ^ 256) ∧
      ∀ other : TypedFields Rest, validateStateless config { tx with rest := other } = .ok () := by
  obtain ⟨hrules, -, -⟩ := (validateStateless_eq_ok_iff config tx).mp haccepted
  have hcost : fullCost tx < 2 ^ 256 + tx.rest.blobCost :=
    Nat.add_lt_add_right hrules.cost tx.rest.blobCost
  refine ⟨hcost, fun hfields ↦ ?_, fun other ↦ ?_⟩
  · rwa [TypedFields.blobCost_eq_zero hfields, Nat.add_zero] at hcost
  · rw [← haccepted]
    exact validateStateless_with_rest config tx other

/-- A call with one blob on mainnet. -/
theorem fullCost_of_one_blob :
    let call : Transaction (TypedFields Unit) :=
      { sender := .repeatByte 1, kind := .call (.repeatByte 2), chainId := some 1, nonce := 0,
        gasLimit := 21000, maxFeePerGas := 2, maxPriorityFeePerGas := some 1, value := 1,
        rest := .eip4844 [.repeatByte 1] 3 () }
    validateStateless .default call = .ok () ∧ fullCost call < 2 ^ 256 + 2 ^ 17 * 3 := by
  intro call
  have haccepted : validateStateless .default call = .ok () := by decide +kernel
  exact ⟨haccepted, (fullCost_of_accepted .default call haccepted).1⟩

/-- A call whose value and gas cost are `2 ^ 256 - 1` together, with one blob: it is accepted, and
its full cost is not below `2 ^ 256`. -/
theorem fullCost_not_lt_with_blob :
    let call : Transaction (TypedFields Unit) :=
      { sender := .repeatByte 1, kind := .call (.repeatByte 2), chainId := some 1, nonce := 0,
        gasLimit := 21000, maxFeePerGas := 1, maxPriorityFeePerGas := some 1,
        value := .ofNat 256 (2 ^ 256 - 21001), rest := .eip4844 [.repeatByte 1] 1 () }
    validateStateless .default call = .ok () ∧ ¬ fullCost call < 2 ^ 256 := by
  intro call
  have hcost : fullCost call = 2 ^ 256 - 21001 + 21000 * 1 + 2 ^ 17 * 1 * 1 := by rfl
  refine ⟨by decide +kernel, ?_⟩
  rw [hcost]
  omega

end Cost

end SentryNode
