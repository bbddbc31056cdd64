import Mathlib.Init

/-!
# Hashes, headers and the eth requests about them

The values that the sentry node passes around without looking inside, and the requests its peers
send. A block header carries the fields the node reads and, in `Rest`, every field it never reads;
a block body is a type of its own, `Body`, in every module, because no code of the node opens one.
-/

set_option autoImplicit false
set_option relaxedAutoImplicit false

namespace SentryNode

/-- A 256-bit hash, `FixedBytes<32>`. -/
structure B256 where
  bytes : List UInt8
  length_bytes : bytes.length = 32
deriving DecidableEq

/-- The hash made of one byte repeated. -/
def B256.repeatByte (byte : UInt8) : B256 := ⟨List.replicate 32 byte, List.length_replicate⟩

/-- A block header: the fields the node and its peers read, and the `rest`. -/
structure Header (Rest : Type*) where
  parentHash : B256
  number : UInt64
  timestamp : UInt64
  rest : Rest
deriving DecidableEq

/-- The start of a header request. -/
inductive BlockHashOrNumber
  | hash (hash : B256)
  | number (number : UInt64)
deriving DecidableEq

/-- The order of the headers in an answer. -/
inductive HeadersDirection
  | rising
  | falling
deriving DecidableEq

/-- `HeadersDirection::is_rising`. -/
def HeadersDirection.isRising : HeadersDirection → Bool
  | rising => true
  | falling => false

/-- The eth message `GetBlockHeaders`. -/
structure GetBlockHeaders where
  startBlock : BlockHashOrNumber
  limit : UInt64
  skip : UInt32
  direction : HeadersDirection
deriving DecidableEq

/-- The request the fetch client takes: there is no skip in it. -/
structure HeadersRequest where
  start : BlockHashOrNumber
  limit : UInt64
  direction : HeadersDirection
deriving DecidableEq

end SentryNode
