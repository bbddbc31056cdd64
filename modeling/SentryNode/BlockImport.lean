import SentryNode.BlockCache

/-!
# Block import

The network task hands every announcement of a new block to the block import. A full block is cached
under the hash it was announced with, as a header and a body, and passed on to the task that
rebroadcasts it; an announcement of hashes alone is ignored. Nothing else of the import touches the
cache, so `onNewBlock` is what other tasks can find changed between two of their accesses.
-/

set_option autoImplicit false
set_option relaxedAutoImplicit false

namespace SentryNode

variable {Rest Body : Type*}

/-- The block of a `NewBlock` message. -/
structure NewBlock (Rest Body : Type*) where
  header : Header Rest
  body : Body

/-- A `NewBlock` message with the hash of its block. -/
structure NewBlockMessage (Rest Body : Type*) where
  hash : B256
  block : NewBlock Rest Body

/-- An announcement: a full block, or hashes alone. -/
inductive NewBlockEvent (Rest Body : Type*)
  | block (msg : NewBlockMessage Rest Body)
  | hashes (hashes : List B256)

/-- Data sent from the block import to the rebroadcast task. -/
structure NewBlockData (Rest Body : Type*) where
  hash : B256
  block : NewBlock Rest Body

/-- The block import: the shared cache, and what it sent to the rebroadcast task, oldest first. -/
structure CachingBlockImport (Rest Body : Type*) where
  cache : BlockCache Rest Body
  rebroadcastTx : List (NewBlockData Rest Body)

/-- Cache the block and send it to the rebroadcast task. -/
def CachingBlockImport.onNewBlock (blockImport : CachingBlockImport Rest Body) :
    NewBlockEvent Rest Body → CachingBlockImport Rest Body
  | .block msg =>
    { cache := blockImport.cache.insert msg.hash msg.block.header msg.block.body
      rebroadcastTx := blockImport.rebroadcastTx ++ [{ hash := msg.hash, block := msg.block }] }
  | .hashes _ => blockImport

end SentryNode
