import SentryNode.Validator.BlobFees
import SentryNode.WsServer.Connection

/-!
# Forwarding pending transactions

The task that listens to the pool looks a new transaction up, takes the consensus form of it and
encodes that for the forwarder. The backends and the raw clients of the WebSocket server get these
bytes in hexadecimal.

Whoever receives them decodes a pooled transaction. The consensus form of an EIP-4844 transaction
has no sidecar, so its encoding is no pooled one: `forwarded_submittable_iff` states that what is
sent can be submitted exactly when the transaction is of another type.
-/

set_option autoImplicit false
set_option relaxedAutoImplicit false

namespace SentryNode.Network

variable {Rest Sidecar : Type*}

/-! ### The task -/

/-- A transaction as the pool holds it: one with blobs has its sidecar. -/
structure EthPooledTransaction (Rest Sidecar : Type*) where
  transaction : Transaction (TypedFields Rest)
  blobSidecar : Option Sidecar
  isSome_blobSidecar : blobSidecar.isSome = transaction.rest.isEip4844
deriving DecidableEq

/-- What is used of the transaction types: the conversion to the consensus form, its EIP-2718
encoding, and the pooled encoding with its decoder. -/
structure TxCodec (Rest Sidecar : Type*) where
  cloneIntoConsensus : EthPooledTransaction Rest Sidecar → Transaction (TypedFields Rest)
  encoded2718 : Transaction (TypedFields Rest) → List UInt8
  encodePooled : EthPooledTransaction Rest Sidecar → List UInt8
  decodePooled : List UInt8 → Option (EthPooledTransaction Rest Sidecar)

/-- What holds of them for a transaction. The consensus form has all but the sidecar, and where
there is none, both encodings are the same. The pooled encoding can be decoded, and a transaction
with blobs cannot be without its sidecar. -/
structure TxCodec.LawfulFor (codec : TxCodec Rest Sidecar)
    (tx : EthPooledTransaction Rest Sidecar) : Prop where
  cloneIntoConsensus : codec.cloneIntoConsensus tx = tx.transaction
  encodePooled : tx.transaction.rest.isEip4844 = false →
    codec.encodePooled tx = codec.encoded2718 tx.transaction
  decodePooled : codec.decodePooled (codec.encodePooled tx) = some tx
  noSidecar : tx.transaction.rest.isEip4844 = true →
    codec.decodePooled (codec.encoded2718 tx.transaction) = none

/-- The task, told of a new transaction: what it passes to the forwarder, if the pool still has the
transaction. -/
def forwardPending (codec : TxCodec Rest Sidecar)
    (pool : B256 → Option (EthPooledTransaction Rest Sidecar)) (txHash : B256) :
    Option ForwardableTx :=
  (pool txHash).map fun tx ↦
    { hash := txHash, rawTx := codec.encoded2718 (codec.cloneIntoConsensus tx) }

/-! ### The receivers -/

/-- The transaction that a receiver gets from a text. -/
def decodeText [Hex] (codec : TxCodec Rest Sidecar) (text : String) :
    Option (EthPooledTransaction Rest Sidecar) := (Hex.decode text).bind codec.decodePooled

/-- A receiver decodes the bytes that were encoded. -/
theorem decodeText_encode [Hex] (hhex : Hex.Lawful) (codec : TxCodec Rest Sidecar)
    (bytes : List UInt8) :
    decodeText codec ("0x" ++ Hex.encode bytes) = codec.decodePooled bytes := by
  rw [decodeText, hhex.decode_marked, Option.bind_some]

/-! ### What is submitted -/

/-- What was passed to the forwarder is the pooled encoding of a transaction, and both the request
to the backends and the notification of the raw clients give it back to their receivers. -/
structure Submittable [Hex] (codec : TxCodec Rest Sidecar) (tx : EthPooledTransaction Rest Sidecar)
    (forwardable : ForwardableTx) (id : UInt64) : Prop where
  encoding : forwardable.rawTx = codec.encodePooled tx
  request : (requestOf forwardable id).params.map (decodeText codec) = [some tx]
  notification :
    decodeText codec (RawTxNotification.of (notificationOf forwardable)).rawTx = some tx

/-- What is sent for a transaction can be submitted exactly when it has no blobs. Assumes: the pool
holds the transaction, and the encodings do for it what they are documented to do. -/
theorem forwarded_submittable_iff [Hex] (hhex : Hex.Lawful) (codec : TxCodec Rest Sidecar)
    (pool : B256 → Option (EthPooledTransaction Rest Sidecar)) (txHash : B256)
    (tx : EthPooledTransaction Rest Sidecar) (hpool : pool txHash = some tx)
    (hlawful : codec.LawfulFor tx) (id : UInt64) :
    (∃ forwardable, forwardPending codec pool txHash = some forwardable ∧
      Submittable codec tx forwardable id) ↔ tx.transaction.rest.isEip4844 = false := by
  have hforward : forwardPending codec pool txHash =
      some { hash := txHash, rawTx := codec.encoded2718 tx.transaction } := by
    rw [forwardPending, hpool, Option.map_some, hlawful.cloneIntoConsensus]
  constructor
  · rintro ⟨forwardable, hforwardable, hsubmittable⟩
    obtain rfl := Option.some.inj (hforward.symm.trans hforwardable)
    by_contra hblobs
    have hnone := hlawful.noSidecar (Bool.not_eq_false _ ▸ hblobs)
    have hsome := hsubmittable.notification
    rw [RawTxNotification.of, notificationOf, decodeText_encode hhex, hnone] at hsome
    cases hsome
  · intro hplain
    have hdecode := hlawful.decodePooled
    rw [hlawful.encodePooled hplain] at hdecode
    refine ⟨_, hforward, (hlawful.encodePooled hplain).symm, ?_, ?_⟩
    · rw [requestOf, List.map_singleton, decodeText_encode hhex, hdecode]
    · rw [RawTxNotification.of, notificationOf, decodeText_encode hhex, hdecode]

/-- A legacy transfer on mainnet. Its encoding is a list of nine items. -/
theorem forwarded_submittable_of_legacy :
    let _ : Hex := .lower
    let tx : EthPooledTransaction Unit Unit :=
      { transaction :=
          { sender := .repeatByte 1, kind := .call (.repeatByte 2), chainId := some 1, nonce := 0,
            gasLimit := 21000, maxFeePerGas := 2, maxPriorityFeePerGas := none, value := 1,
            rest := .legacy () }
        blobSidecar := none
        isSome_blobSidecar := rfl }
    let encoded : List UInt8 :=
      [0xdf, 0x80, 0x02, 0x82, 0x52, 0x08, 0x94] ++ List.replicate 20 2 ++
        [0x01, 0x80, 0x25, 0x01, 0x01]
    let codec : TxCodec Unit Unit :=
      { cloneIntoConsensus := fun pooled ↦ pooled.transaction
        encoded2718 := fun _ ↦ encoded
        encodePooled := fun _ ↦ encoded
        decodePooled := fun bytes ↦ if bytes = encoded then some tx else none }
    ∃ forwardable, forwardPending codec (fun _ ↦ some tx) (.repeatByte 7) = some forwardable ∧
      Submittable codec tx forwardable 1 := by
  intro hex tx encoded codec
  have hlawful : codec.LawfulFor tx := {
    cloneIntoConsensus := rfl
    encodePooled := fun _ ↦ rfl
    decodePooled := by simp only [codec, if_true]
    noSidecar := by rintro ⟨⟩ }
  exact (forwarded_submittable_iff Hex.lawful_lower codec (fun _ ↦ some tx) (.repeatByte 7) tx rfl
    hlawful 1).mpr rfl

/-- A call with one blob on mainnet, which the validator accepts and the pool holds with an empty
sidecar. What is sent is the encoding without the sidecar, which no receiver can decode. -/
theorem blob_transaction_not_submittable :
    let _ : Hex := .lower
    let tx : EthPooledTransaction Unit (List UInt8) :=
      { transaction :=
          { sender := .repeatByte 1, kind := .call (.repeatByte 2), chainId := some 1, nonce := 0,
            gasLimit := 21000, maxFeePerGas := 2, maxPriorityFeePerGas := some 1, value := 1,
            rest := .eip4844 [.repeatByte 1] 3 () }
        blobSidecar := some []
        isSome_blobSidecar := rfl }
    let fields : List UInt8 :=
      [0xf8, 0x45, 0x01, 0x80, 0x01, 0x02, 0x82, 0x52, 0x08, 0x94] ++ List.replicate 20 2 ++
        [0x01, 0x80, 0xc0, 0x03, 0xe1, 0xa0] ++ List.replicate 32 1 ++ [0x01, 0x01, 0x01]
    let pooled : List UInt8 := [0x03, 0xf8, 0x4a] ++ fields ++ [0xc0, 0xc0, 0xc0]
    let codec : TxCodec Unit (List UInt8) :=
      { cloneIntoConsensus := fun pooled ↦ pooled.transaction
        encoded2718 := fun _ ↦ 0x03 :: fields
        encodePooled := fun _ ↦ pooled
        decodePooled := fun bytes ↦ if bytes = pooled then some tx else none }
    validateStateless .default tx.transaction = .ok () ∧ codec.LawfulFor tx ∧
      ∃ forwardable, forwardPending codec (fun _ ↦ some tx) (.repeatByte 7) = some forwardable ∧
        codec.decodePooled forwardable.rawTx = none ∧ ¬ Submittable codec tx forwardable 1 := by
  intro hex tx fields pooled codec
  have haccepted : validateStateless .default tx.transaction = .ok () := by
    decide +kernel
  have hlawful : codec.LawfulFor tx := {
    cloneIntoConsensus := rfl
    encodePooled := by rintro ⟨⟩
    decodePooled := by simp only [codec, if_true]
    noSidecar := by
      intro _
      exact if_neg (t := some tx) (by decide : 0x03 :: fields ≠ pooled) }
  refine ⟨haccepted, hlawful, _, rfl, hlawful.noSidecar rfl, fun hsubmittable ↦ ?_⟩
  have hencoding := hsubmittable.encoding
  revert hencoding
  decide

end SentryNode.Network
