import SentryNode.Primitives

/-!
# The WebSocket broadcaster

The sending side of the WebSocket server: what the forwarder passes to the broadcast channel, oldest
first. A send without receivers is no error.
-/

set_option autoImplicit false
set_option relaxedAutoImplicit false

namespace SentryNode

/-- A pending transaction notification broadcast to WebSocket subscribers. -/
structure PendingTxNotification where
  hash : B256
  rawTx : List UInt8
deriving DecidableEq

/-- The handle for broadcasting pending transactions, with what was sent through it. -/
structure WsBroadcaster where
  sent : List PendingTxNotification
deriving DecidableEq

/-- Broadcast a pending transaction to all connected clients. -/
def WsBroadcaster.broadcast (wsBroadcaster : WsBroadcaster) (notification : PendingTxNotification) :
    WsBroadcaster := { sent := wsBroadcaster.sent ++ [notification] }

end SentryNode
