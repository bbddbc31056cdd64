import SentryNode.Forwarder
import SentryNode.Library.Broadcast

/-!
# Connections to the WebSocket server

A client that is accepted is subscribed to the broadcast channel at once, before its handshake and
before it has said what it wants. Its task then waits for the handshake, for the first message of
the client, which gives the mode, sends a confirmation, and from there on takes the notifications
from the channel one after the other and sends each of them as a JSON text.

The tasks of all clients and the sender run concurrently: `WsServer.step` moves one of them at a
time, and a task can be overtaken wherever it waits. How long it waits, what a client sends, and
which of its messages fail to be sent is left to the events. The channel retains the newest
notifications, at least as many as the configured capacity.
-/

set_option autoImplicit false
set_option relaxedAutoImplicit false

namespace SentryNode

open Library

/-! ### Messages -/

/-- Hash-only notification sent to clients. -/
structure HashNotification where
  hash : String
deriving DecidableEq

/-- Full raw transaction notification sent to clients. -/
structure RawTxNotification where
  hash : String
  rawTx : String
deriving DecidableEq

/-- What the hash mode keeps of a notification. -/
def RawTxNotification.toHashNotification (notification : RawTxNotification) : HashNotification where
  hash := notification.hash

def HashNotification.of [Hex] (notification : PendingTxNotification) : HashNotification where
  hash := "0x" ++ Hex.encode notification.hash.bytes

def RawTxNotification.of [Hex] (notification : PendingTxNotification) : RawTxNotification where
  hash := "0x" ++ Hex.encode notification.hash.bytes
  rawTx := "0x" ++ Hex.encode notification.rawTx

/-- Subscription request from a client. -/
structure SubscribeRequest where
  subscribe : String
  mode : String

/-- The mode of a request that has none. -/
def defaultMode : String := "raw"

/-- The JSON texts of the server. A text that is no request is `none`, and a request may come
without a mode. A notification that cannot be serialized is `none`; the error is only logged. -/
structure SerdeJson where
  subscribeRequest : String → Option (String × Option String)
  confirmation : String → String
  hashNotification : HashNotification → Option String
  rawTxNotification : RawTxNotification → Option String

def SerdeJson.parseRequest (serde : SerdeJson) (text : String) : Option SubscribeRequest :=
  (serde.subscribeRequest text).map fun (subscribe, mode) ↦
    { subscribe, mode := mode.getD defaultMode }

/-- Whether a mode asks for the transactions themselves. -/
def usesRaw (mode : String) : Bool := mode = "raw" || mode = "full"

/-- The text of a notification in a mode. -/
def SerdeJson.notification [Hex] (serde : SerdeJson) (mode : String)
    (notification : PendingTxNotification) : Option String :=
  if usesRaw mode then serde.rawTxNotification (.of notification)
  else serde.hashNotification (.of notification)

/-- What the wait for the subscription of a client ends with. -/
inductive FirstMessage
  | text (text : String)
  | notText
  | error
  | closed
  | timeout
deriving DecidableEq

/-- The mode of a subscription. A request for anything else is taken as one for the pending
transactions, and whatever is no request as one without a mode. -/
def waitForSubscription (serde : SerdeJson) : FirstMessage → Option String
  | .text text =>
    match serde.parseRequest text with
    | some request => some request.mode
    | none => some "raw"
  | .notText => some "raw"
  | .error => none
  | .closed => none
  | .timeout => some "raw"

/-! ### One connection -/

/-- What the task of a connection waits for. -/
inductive WsPhase
  | handshaking
  | subscribing
  | confirming (mode : String)
  | streaming (mode : String)
  | sending (mode json : String)
  | disconnected (mode : Option String)
deriving DecidableEq

/-- The mode, once the client has one. -/
def WsPhase.mode : WsPhase → Option String
  | handshaking => none
  | subscribing => none
  | confirming mode => some mode
  | streaming mode => some mode
  | sending mode _ => some mode
  | disconnected mode => mode

/-- A connection. `acceptedAt` is the number of notifications sent before it was accepted, `next`
the position of the next one to receive, `received` the results of its receives, and `outbox` the
messages sent to the client. -/
structure WsConnection where
  acceptedAt : ℕ
  next : ℕ
  phase : WsPhase
  received : List (Received PendingTxNotification)
  outbox : List String
deriving DecidableEq

/-- The channel of the server: what was sent through it, how much of that it retains, and whether
all senders are gone. -/
structure WsChannel where
  wsBroadcaster : WsBroadcaster
  retained : ℕ
  closed : Bool
deriving DecidableEq

/-- What ends a wait of a connection. A receive also is tried when nothing is pending. -/
inductive WsAction
  | handshake (succeeds : Bool)
  | subscription (message : FirstMessage)
  | send (succeeds : Bool)
  | receive

namespace WsConnection

/-- A connection that is accepted now. -/
def accepted (channel : WsChannel) : WsConnection where
  acceptedAt := channel.wsBroadcaster.sent.length
  next := channel.wsBroadcaster.sent.length
  phase := .handshaking
  received := []
  outbox := []

/-- The task returns. -/
def disconnect (connection : WsConnection) : WsConnection :=
  { connection with phase := .disconnected connection.phase.mode }

/-- A message goes out, and the task goes on with its loop. -/
def sent (connection : WsConnection) (mode text : String) : WsConnection :=
  { connection with phase := .streaming mode, outbox := connection.outbox ++ [text] }

/-- One turn of the loop. -/
def receive [Hex] (serde : SerdeJson) (channel : WsChannel) (mode : String)
    (connection : WsConnection) :
    WsConnection :=
  match Library.receive channel.retained channel.wsBroadcaster.sent connection.next with
  | some (result, next) =>
    let took := { connection with next, received := connection.received ++ [result] }
    match result with
    | .value notification =>
      match serde.notification mode notification with
      | some json => { took with phase := .sending mode json }
      | none => took
    | .lagged _ => took
  | none => if channel.closed then connection.disconnect else connection

/-- The task goes on, if this is what it waits for. -/
def step [Hex] (serde : SerdeJson) (channel : WsChannel) (connection : WsConnection) :
    WsAction → WsConnection
  | .handshake succeeds =>
    match connection.phase with
    | .handshaking =>
      if succeeds then { connection with phase := .subscribing } else connection.disconnect
    | _ => connection
  | .subscription message =>
    match connection.phase with
    | .subscribing =>
      match waitForSubscription serde message with
      | some mode => { connection with phase := .confirming mode }
      | none => connection.disconnect
    | _ => connection
  | .send succeeds =>
    match connection.phase with
    | .confirming mode =>
      if succeeds then connection.sent mode (serde.confirmation mode) else connection.disconnect
    | .sending mode json => if succeeds then connection.sent mode json else connection.disconnect
    | _ => connection
  | .receive =>
    match connection.phase with
    | .streaming mode => connection.receive serde channel mode
    | _ => connection

end WsConnection

/-! ### The server -/

/-- The server with its connections, in the order in which they were accepted. -/
structure WsServer where
  channel : WsChannel
  connections : List WsConnection
deriving DecidableEq

/-- What happens: a notification is broadcast, a client is accepted, a connection goes on, or the
last sender is dropped. A failed accept is only logged. -/
inductive WsEvent
  | broadcast (notification : PendingTxNotification)
  | accept (succeeds : Bool)
  | connection (client : ℕ) (action : WsAction)
  | dropSenders

namespace WsServer

/-- The server before its first client. -/
def initial (retained : ℕ) : WsServer where
  channel := { wsBroadcaster := { sent := [] }, retained, closed := false }
  connections := []

/-- What was broadcast so far. -/
def sent (server : WsServer) : List PendingTxNotification := server.channel.wsBroadcaster.sent

/-- One event. Without a sender nothing is broadcast, and nobody is accepted. -/
def step [Hex] (serde : SerdeJson) (server : WsServer) : WsEvent → WsServer
  | .broadcast notification =>
    if server.channel.closed then server
    else
      { server with channel := { server.channel with
          wsBroadcaster := server.channel.wsBroadcaster.broadcast notification } }
  | .accept succeeds =>
    if succeeds && !server.channel.closed then
      { server with connections := server.connections ++ [.accepted server.channel] }
    else server
  | .connection client action =>
    { server with
      connections := server.connections.modify client fun connection ↦
        connection.step serde server.channel action }
  | .dropSenders => { server with channel := { server.channel with closed := true } }

end WsServer

end SentryNode
