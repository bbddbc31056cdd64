import SentryNode.WsServer.Connection

/-!
# What a client of the WebSocket server receives

What a connection has sent to its client is told by its phase (`Streams`): nothing before the
confirmation, then the confirmation and the texts of the notifications received, the last of which
may be on its way or, after a disconnect, lost. The results of its receives account for all that was
broadcast since it was accepted (`Tracked`), in every interleaving of broadcasts, accepts and
connections (`tracked_run`).

A lag is reported only to a connection that is behind by more than the capacity (`KeepsUp`), so
one that keeps up receives everything. `stream_since_accept` puts this together, and compares the
streams of two clients that were accepted at the same point.
-/

set_option autoImplicit false
set_option relaxedAutoImplicit false

namespace SentryNode

open Library

/-! ### The messages of a connection -/

/-- The messages for what a connection received: the confirmation, and the notifications. -/
def SerdeJson.messages [Hex] (serde : SerdeJson) (mode : String)
    (received : List (Received PendingTxNotification)) : List String :=
  serde.confirmation mode :: (receivedValues received).filterMap (serde.notification mode)

theorem SerdeJson.messages_concat [Hex] (serde : SerdeJson) (mode : String)
    (received : List (Received PendingTxNotification)) (result : Received PendingTxNotification) :
    serde.messages mode (received ++ [result]) =
      serde.messages mode received ++
        (result.value?.bind (serde.notification mode)).toList := by
  have hlast : (receivedValues [result]).filterMap (serde.notification mode) =
      (result.value?.bind (serde.notification mode)).toList := by
    cases result with
    | lagged skipped => rfl
    | value notification =>
      cases hjson : serde.notification mode notification <;>
        simp [receivedValues, Received.value?, hjson]
  rw [messages, messages, receivedValues, List.filterMap_append, List.filterMap_append,
    List.cons_append, ← receivedValues, ← receivedValues, hlast]

/-- What was sent to the client, by the phase of its connection. -/
def Streams [Hex] (serde : SerdeJson) (received : List (Received PendingTxNotification))
    (outbox : List String) : WsPhase → Prop
  | .handshaking => outbox = [] ∧ received = []
  | .subscribing => outbox = [] ∧ received = []
  | .confirming _ => outbox = [] ∧ received = []
  | .streaming mode => outbox = serde.messages mode received
  | .sending mode json => outbox ++ [json] = serde.messages mode received
  | .disconnected none => outbox = []
  | .disconnected (some mode) => outbox <+: serde.messages mode received

theorem Streams.unconfirmed [Hex] {serde : SerdeJson}
    {received : List (Received PendingTxNotification)} {outbox : List String} {phase : WsPhase}
    (hstreams : Streams serde received outbox phase) (hmode : phase.mode = none) : outbox = [] := by
  cases phase with
  | handshaking | subscribing => exact hstreams.1
  | confirming | streaming | sending => cases hmode
  | disconnected mode =>
    cases hmode
    exact hstreams

theorem Streams.inOrder [Hex] {serde : SerdeJson} {received : List (Received PendingTxNotification)}
    {outbox : List String} {phase : WsPhase} {mode : String}
    (hstreams : Streams serde received outbox phase) (hmode : phase.mode = some mode) :
    outbox <+: serde.messages mode received := by
  cases phase with
  | handshaking | subscribing => cases hmode
  | confirming =>
    rw [hstreams.1]
    exact List.nil_prefix
  | streaming =>
    cases hmode
    exact hstreams ▸ List.prefix_rfl
  | sending mode json =>
    cases hmode
    exact ⟨[json], hstreams⟩
  | disconnected =>
    cases hmode
    exact hstreams

/-- What a connection received and sent, in view of all that was broadcast. -/
structure Tracked [Hex] (serde : SerdeJson) (sent : List PendingTxNotification)
    (connection : WsConnection) : Prop where
  accounts : Accounts (sent.drop connection.next) connection.received
    (sent.drop connection.acceptedAt)
  acceptedAt_le : connection.acceptedAt ≤ sent.length
  next_le : connection.next ≤ sent.length
  streams : Streams serde connection.received connection.outbox connection.phase

section Steps

variable {serde : SerdeJson} {channel : WsChannel} {sent : List PendingTxNotification}
  {connection : WsConnection}

theorem tracked_accepted [Hex] (serde : SerdeJson) (channel : WsChannel) :
    Tracked serde channel.wsBroadcaster.sent (.accepted channel) where
  accounts := .nil
  acceptedAt_le := Nat.le_refl _
  next_le := Nat.le_refl _
  streams := ⟨rfl, rfl⟩

/-- A broadcast adds to what is pending. -/
theorem Tracked.broadcast [Hex] (htracked : Tracked serde sent connection)
    (notification : PendingTxNotification) :
    Tracked serde (sent ++ [notification]) connection where
  accounts := by
    rw [List.drop_append_of_le_length htracked.next_le,
      List.drop_append_of_le_length htracked.acceptedAt_le]
    exact htracked.accounts.send notification
  acceptedAt_le := by
    rw [List.length_append]
    exact Nat.le_add_right_of_le htracked.acceptedAt_le
  next_le := by
    rw [List.length_append]
    exact Nat.le_add_right_of_le htracked.next_le
  streams := htracked.streams

/-- A step that receives nothing. -/
theorem Tracked.advance [Hex] (htracked : Tracked serde sent connection) {phase : WsPhase}
    {outbox : List String} (hstreams : Streams serde connection.received outbox phase) :
    Tracked serde sent { connection with phase, outbox } :=
  { htracked with streams := hstreams }

theorem Tracked.disconnect [Hex] (htracked : Tracked serde sent connection) :
    Tracked serde sent connection.disconnect := by
  refine htracked.advance ?_
  cases hmode : connection.phase.mode with
  | none => exact htracked.streams.unconfirmed hmode
  | some mode => exact htracked.streams.inOrder hmode

/-- One turn of the loop receives one result. A notification is put on its way to the client. -/
theorem Tracked.receive [Hex] {mode : String}
    (htracked : Tracked serde channel.wsBroadcaster.sent connection)
    (hphase : connection.phase = .streaming mode) :
    Tracked serde channel.wsBroadcaster.sent (connection.receive serde channel mode) := by
  have hstreams := htracked.streams
  rw [hphase] at hstreams
  unfold WsConnection.receive
  cases hreceive :
      Library.receive channel.retained channel.wsBroadcaster.sent connection.next with
  | none =>
    simp only
    split_ifs with hclosed
    · exact htracked.disconnect
    · exact htracked
  | some taken =>
    obtain ⟨result, next⟩ := taken
    have haccounts := htracked.accounts.receive hreceive
    have hnext := le_length_of_receive hreceive
    have hmessages := serde.messages_concat mode connection.received result
    cases result with
    | lagged skipped =>
      refine ⟨haccounts, htracked.acceptedAt_le, hnext, ?_⟩
      rw [hphase]
      exact hstreams.trans (hmessages.trans (List.append_nil _)).symm
    | value notification =>
      cases hjson : serde.notification mode notification with
      | none =>
        simp only [Received.value?, Option.bind_some, hjson, Option.toList_none,
          List.append_nil] at hmessages
        simp only [hjson]
        refine ⟨haccounts, htracked.acceptedAt_le, hnext, ?_⟩
        rw [hphase]
        exact hstreams.trans hmessages.symm
      | some json =>
        simp only [Received.value?, Option.bind_some, hjson, Option.toList_some] at hmessages
        simp only [hjson]
        refine ⟨haccounts, htracked.acceptedAt_le, hnext, ?_⟩
        exact (congrArg (· ++ [json]) hstreams).trans hmessages.symm

/-- One step of a connection, by what it waits for. -/
theorem Tracked.step [Hex] (htracked : Tracked serde channel.wsBroadcaster.sent connection)
    (action : WsAction) :
    Tracked serde channel.wsBroadcaster.sent (connection.step serde channel action) := by
  have hstreams := htracked.streams
  cases action with
  | handshake succeeds =>
    cases hphase : connection.phase with
    | handshaking =>
      rw [hphase] at hstreams
      simp only [WsConnection.step, hphase]
      split_ifs with hsucceeds
      · exact htracked.advance hstreams
      · exact htracked.disconnect
    | subscribing | confirming | streaming | sending | disconnected =>
      simpa only [WsConnection.step, hphase] using htracked
  | subscription message =>
    cases hphase : connection.phase with
    | subscribing =>
      rw [hphase] at hstreams
      simp only [WsConnection.step, hphase]
      cases waitForSubscription serde message with
      | none => exact htracked.disconnect
      | some mode => exact htracked.advance hstreams
    | handshaking | confirming | streaming | sending | disconnected =>
      simpa only [WsConnection.step, hphase] using htracked
  | send succeeds =>
    cases hphase : connection.phase with
    | confirming mode =>
      rw [hphase] at hstreams
      simp only [WsConnection.step, hphase]
      split_ifs with hsucceeds
      · refine htracked.advance ?_
        rw [hstreams.1, hstreams.2]
        rfl
      · exact htracked.disconnect
    | sending mode json =>
      rw [hphase] at hstreams
      simp only [WsConnection.step, hphase]
      split_ifs with hsucceeds
      · exact htracked.advance hstreams
      · exact htracked.disconnect
    | handshaking | subscribing | streaming | disconnected =>
      simpa only [WsConnection.step, hphase] using htracked
  | receive =>
    cases hphase : connection.phase with
    | streaming mode =>
      simp only [WsConnection.step, hphase]
      exact htracked.receive hphase
    | handshaking | subscribing | confirming | sending | disconnected =>
      simpa only [WsConnection.step, hphase] using htracked

end Steps

/-! ### Runs of the server -/

/-- Every connection is tracked. -/
def EachTracked [Hex] (serde : SerdeJson) (server : WsServer) : Prop :=
  ∀ connection ∈ server.connections, Tracked serde server.sent connection

theorem EachTracked.step [Hex] {serde : SerdeJson} {server : WsServer}
    (htracked : EachTracked serde server) (event : WsEvent) :
    EachTracked serde (server.step serde event) := by
  cases event with
  | broadcast notification =>
    simp only [WsServer.step]
    split_ifs with hclosed
    · exact htracked
    · exact fun connection hmem ↦ (htracked connection hmem).broadcast notification
  | accept succeeds =>
    simp only [WsServer.step]
    split_ifs with haccepts
    · intro connection hmem
      rcases List.mem_append.mp hmem with hbefore | hlast
      · exact htracked connection hbefore
      · rw [List.mem_singleton.mp hlast]
        exact tracked_accepted serde server.channel
    · exact htracked
  | connection client action =>
    intro connection hmem
    obtain ⟨index, hindex⟩ := List.mem_iff_getElem?.mp hmem
    rw [WsServer.step, List.getElem?_modify] at hindex
    obtain ⟨before, hbefore, rfl⟩ := Option.map_eq_some_iff.mp hindex
    have hconnection := htracked before (List.mem_of_getElem? hbefore)
    split_ifs with hclient
    · exact hconnection.step action
    · exact hconnection
  | dropSenders => exact htracked

theorem tracked_run [Hex] (serde : SerdeJson) (retained : ℕ) (events : List WsEvent) :
    EachTracked serde (run (WsServer.step serde) (.initial retained) events) :=
  run_history (fun _ server ↦ EachTracked serde server)
    (fun _ hmem ↦ absurd hmem List.not_mem_nil)
    (fun _ _ event htracked ↦ htracked.step event) events

/-! ### Clients that keep up -/

/-- A client is behind by at most the capacity. -/
def KeepsUp (capacity client : ℕ) (server : WsServer) (_ : WsEvent) : Prop :=
  ∀ connection ∈ server.connections[client]?, server.sent.length - connection.next ≤ capacity

instance (capacity client : ℕ) (server : WsServer) (event : WsEvent) :
    Decidable (KeepsUp capacity client server event) :=
  inferInstanceAs (Decidable (∀ connection ∈ server.connections[client]?,
    server.sent.length - connection.next ≤ capacity))

/-- A step receives nothing, or what the channel gives. -/
theorem received_step [Hex] (serde : SerdeJson) (channel : WsChannel) (connection : WsConnection)
    (action : WsAction) :
    (connection.step serde channel action).received = connection.received ∨
      ∃ result next, Library.receive channel.retained channel.wsBroadcaster.sent connection.next =
          some (result, next) ∧
        (connection.step serde channel action).received = connection.received ++ [result] := by
  unfold WsConnection.step
  cases action with
  | handshake | subscription =>
    left
    simp only
    split
    · split <;> rfl
    · rfl
  | send =>
    left
    simp only
    split
    · split <;> rfl
    · split <;> rfl
    · rfl
  | receive =>
    simp only
    split
    · unfold WsConnection.receive
      cases hreceive :
          Library.receive channel.retained channel.wsBroadcaster.sent connection.next with
      | none =>
        left
        simp only
        split_ifs <;> rfl
      | some taken =>
        refine Or.inr ⟨taken.1, taken.2, rfl, ?_⟩
        simp only
        split
        · split <;> rfl
        · rfl
    · exact Or.inl rfl

/-- A connection that is behind by no more than what is retained gets no lag. -/
theorem neverLagged_step [Hex] {serde : SerdeJson} {channel : WsChannel} {connection : WsConnection}
    (hbehind : channel.wsBroadcaster.sent.length - connection.next ≤ channel.retained)
    (hreceived : NeverLagged connection.received) (action : WsAction) :
    NeverLagged (connection.step serde channel action).received := by
  rcases received_step serde channel connection action with hsame | ⟨result, next, htaken, hnew⟩
  · rwa [hsame]
  · rw [receive_of_le hbehind] at htaken
    obtain ⟨notification, -, heq⟩ := Option.map_eq_some_iff.mp htaken
    obtain ⟨rfl, -⟩ := Prod.mk.inj heq
    rw [hnew]
    exact neverLagged_concat_value hreceived notification

theorem retained_step [Hex] (serde : SerdeJson) (server : WsServer) (event : WsEvent) :
    (server.step serde event).channel.retained = server.channel.retained := by
  cases event with
  | broadcast | accept =>
    simp only [WsServer.step]
    split_ifs <;> rfl
  | connection | dropSenders => rfl

/-- A client has had no lag, in a channel that retains at least the capacity. -/
structure UpToDate (capacity client : ℕ) (server : WsServer) : Prop where
  capacity_le : capacity ≤ server.channel.retained
  neverLagged : ∀ connection ∈ server.connections[client]?, NeverLagged connection.received

theorem UpToDate.step [Hex] {serde : SerdeJson} {capacity client : ℕ} {server : WsServer}
    {event : WsEvent} (hkeepsUp : KeepsUp capacity client server event)
    (hupToDate : UpToDate capacity client server) :
    UpToDate capacity client (server.step serde event) where
  capacity_le := by
    rw [retained_step]
    exact hupToDate.capacity_le
  neverLagged := by
    cases event with
    | broadcast notification =>
      simp only [WsServer.step]
      split_ifs <;> exact hupToDate.neverLagged
    | accept succeeds =>
      simp only [WsServer.step]
      split_ifs with haccepts
      · intro connection hconnection
        rcases getElem?_concat_cases hconnection with ⟨-, hbefore⟩ | ⟨-, rfl⟩
        · exact hupToDate.neverLagged connection hbefore
        · exact fun skipped ↦ List.not_mem_nil
      · exact hupToDate.neverLagged
    | connection other action =>
      intro connection hconnection
      rw [WsServer.step, List.getElem?_modify] at hconnection
      obtain ⟨before, hbefore, rfl⟩ := Option.map_eq_some_iff.mp hconnection
      have hreceived := hupToDate.neverLagged before hbefore
      split_ifs with hclient
      · exact neverLagged_step ((hkeepsUp before hbefore).trans hupToDate.capacity_le) hreceived
          action
      · exact hreceived
    | dropSenders => exact hupToDate.neverLagged

/-- A client that keeps up in every step of a run has had no lag. -/
theorem neverLagged_run [Hex] {serde : SerdeJson} {capacity retained client : ℕ}
    {events : List WsEvent} (hretained : capacity ≤ retained)
    (hkeepsUp : EachStep (KeepsUp capacity client) (WsServer.step serde) (.initial retained)
      events) :
    ∀ connection ∈ (run (WsServer.step serde) (.initial retained) events).connections[client]?,
      NeverLagged connection.received := by
  have hinitial : UpToDate capacity client (.initial retained) :=
    ⟨hretained, fun connection hconnection ↦ by cases hconnection⟩
  have hdone : UpToDate capacity client
      (run (WsServer.step serde) (.initial retained) events) :=
    run_invariant (UpToDate capacity client) (fun _ _ hkeeps hupToDate ↦ hupToDate.step hkeeps)
      hinitial hkeepsUp
  exact hdone.neverLagged

/-! ### What a client receives -/

section Clients

variable {serde : SerdeJson} {text : String → PendingTxNotification → String}

/-- A client gets nothing before the confirmation, and then the texts of what its connection
received, in order. That is a sublist of what was broadcast since it was accepted, and the lags
reported account for the rest of it. -/
structure StreamsInOrder (serde : SerdeJson) (text : String → PendingTxNotification → String)
    (sent : List PendingTxNotification) (connection : WsConnection) : Prop where
  unconfirmed : connection.phase.mode = none → connection.outbox = []
  inOrder : ∀ mode ∈ connection.phase.mode, connection.outbox <+:
    serde.confirmation mode :: (receivedValues connection.received).map (text mode)
  streaming : ∀ mode, connection.phase = .streaming mode → connection.outbox =
    serde.confirmation mode :: (receivedValues connection.received).map (text mode)
  sublist : (receivedValues connection.received).Sublist (sent.drop connection.acceptedAt)
  accounts : Accounts (sent.drop connection.next) connection.received
    (sent.drop connection.acceptedAt)

/-- The messages of one client are those of another without the transactions. -/
def HashProjection (serde : SerdeJson) (raw hash : WsConnection) : Prop :=
  ∀ position rawText hashText, raw.outbox[position + 1]? = some rawText →
    hash.outbox[position + 1]? = some hashText →
      ∃ notification, serde.rawTxNotification notification = some rawText ∧
        serde.hashNotification notification.toHashNotification = some hashText

theorem SerdeJson.messages_eq_map [Hex]
    (hserde : ∀ mode notification, serde.notification mode notification =
      some (text mode notification))
    (mode : String) (received : List (Received PendingTxNotification)) :
    serde.messages mode received =
      serde.confirmation mode :: (receivedValues received).map (text mode) := by
  rw [messages, ← List.filterMap_eq_map]
  exact congrArg (_ :: ·) (List.filterMap_congr fun notification _ ↦ hserde mode notification)

theorem Tracked.streamsInOrder [Hex] {sent : List PendingTxNotification} {connection : WsConnection}
    (hserde : ∀ mode notification, serde.notification mode notification =
      some (text mode notification))
    (htracked : Tracked serde sent connection) :
    StreamsInOrder serde text sent connection := by
  have hsublist := (List.sublist_append_left _ _).trans htracked.accounts.sublist
  refine ⟨htracked.streams.unconfirmed, fun mode hmode ↦ ?_, fun mode hphase ↦ ?_, hsublist,
    htracked.accounts⟩
  · rw [← SerdeJson.messages_eq_map hserde]
    exact htracked.streams.inOrder hmode
  · have hstreams := htracked.streams
    rw [hphase] at hstreams
    rw [← SerdeJson.messages_eq_map hserde]
    exact hstreams

/-- A message after the confirmation is the text of the notification received at its place. -/
theorem StreamsInOrder.message {sent : List PendingTxNotification} {connection : WsConnection}
    (hinOrder : StreamsInOrder serde text sent connection) {mode message : String} {position : ℕ}
    (hmode : connection.phase.mode = some mode)
    (hmessage : connection.outbox[position + 1]? = some message) :
    ∃ notification, (receivedValues connection.received)[position]? = some notification ∧
      message = text mode notification := by
  obtain ⟨rest, hbegins⟩ := hinOrder.inOrder mode hmode
  have hlt := (List.getElem?_eq_some_iff.mp hmessage).1
  have hkept : (connection.outbox ++ rest)[position + 1]? = connection.outbox[position + 1]? :=
    List.getElem?_append_left hlt
  rw [← hkept, hbegins, List.getElem?_cons_succ, List.getElem?_map] at hmessage
  obtain ⟨notification, hnotification, htext⟩ := Option.map_eq_some_iff.mp hmessage
  exact ⟨notification, hnotification, htext.symm⟩

/-- Without a lag, what a connection received is what was broadcast at its place. -/
theorem StreamsInOrder.received_eq {sent : List PendingTxNotification} {connection : WsConnection}
    (hinOrder : StreamsInOrder serde text sent connection)
    (hnever : NeverLagged connection.received) {position : ℕ}
    {notification : PendingTxNotification}
    (hreceived : (receivedValues connection.received)[position]? = some notification) :
    (sent.drop connection.acceptedAt)[position]? = some notification := by
  have hlt := (List.getElem?_eq_some_iff.mp hreceived).1
  rw [← hinOrder.accounts.eq_of_neverLagged hnever, List.getElem?_append_left hlt, hreceived]

/-- The hash stream of a client is the projection of the raw stream of another. Assumes: both were
accepted at the same point, and neither had a lag. -/
theorem hashProjection_of_neverLagged [Hex]
    (hserde : ∀ mode notification, serde.notification mode notification =
      some (text mode notification))
    {sent : List PendingTxNotification} {raw hash : WsConnection} {rawMode hashMode : String}
    (hraw : StreamsInOrder serde text sent raw) (hhash : StreamsInOrder serde text sent hash)
    (haccepted : raw.acceptedAt = hash.acceptedAt)
    (hrawLag : NeverLagged raw.received) (hhashLag : NeverLagged hash.received)
    (hrawMode : raw.phase.mode = some rawMode) (hhashMode : hash.phase.mode = some hashMode)
    (husesRaw : usesRaw rawMode) (husesHash : ¬ usesRaw hashMode) :
    HashProjection serde raw hash := by
  intro position rawText hashText hrawText hhashText
  obtain ⟨one, hone, rfl⟩ := hraw.message hrawMode hrawText
  obtain ⟨other, hother, rfl⟩ := hhash.message hhashMode hhashText
  have honeAt := hraw.received_eq hrawLag hone
  rw [haccepted, hhash.received_eq hhashLag hother] at honeAt
  obtain rfl := Option.some.inj honeAt
  have hrawJson := hserde rawMode other
  have hhashJson := hserde hashMode other
  rw [SerdeJson.notification, if_pos husesRaw] at hrawJson
  rw [SerdeJson.notification, if_neg husesHash] at hhashJson
  exact ⟨.of other, hrawJson, hhashJson⟩

/-- A client's stream is the stream of what was broadcast, in order, in every interleaving. Assumes:
notifications can be serialized, and the channel retains at least its capacity. A client gets the
confirmation first and then a sublist of what was broadcast since it was accepted, and the lags
reported account for the rest. One that is never behind by more than the capacity has received
everything but what is pending. For two clients accepted at the same point that had no lag, the hash
stream is the projection of the raw stream. -/
theorem stream_since_accept [Hex] (serde : SerdeJson)
    (text : String → PendingTxNotification → String)
    (hserde : ∀ mode notification, serde.notification mode notification =
      some (text mode notification))
    (capacity retained : ℕ) (hretained : capacity ≤ retained) (events : List WsEvent) :
    let server := run (WsServer.step serde) (.initial retained) events
    (∀ connection ∈ server.connections, StreamsInOrder serde text server.sent connection) ∧
      (∀ client, EachStep (KeepsUp capacity client) (WsServer.step serde) (.initial retained)
          events →
        ∀ connection ∈ server.connections[client]?, NeverLagged connection.received ∧
          receivedValues connection.received ++ server.sent.drop connection.next =
            server.sent.drop connection.acceptedAt) ∧
      ∀ raw ∈ server.connections, ∀ hash ∈ server.connections, raw.acceptedAt = hash.acceptedAt →
        NeverLagged raw.received → NeverLagged hash.received →
          ∀ rawMode ∈ raw.phase.mode, ∀ hashMode ∈ hash.phase.mode, usesRaw rawMode →
            ¬ usesRaw hashMode → HashProjection serde raw hash := by
  intro server
  have hinOrder : ∀ connection ∈ server.connections,
      StreamsInOrder serde text server.sent connection := fun connection hmem ↦
    (tracked_run serde retained events connection hmem).streamsInOrder hserde
  refine ⟨hinOrder, fun client hkeepsUp connection hconnection ↦ ?_, ?_⟩
  · have hnever := neverLagged_run hretained hkeepsUp connection hconnection
    have hmem := List.mem_of_getElem? hconnection
    exact ⟨hnever, (hinOrder connection hmem).accounts.eq_of_neverLagged hnever⟩
  · intro raw hraw hash hhash haccepted hrawLag hhashLag rawMode hrawMode hashMode hhashMode
    exact hashProjection_of_neverLagged hserde (hinOrder raw hraw) (hinOrder hash hhash) haccepted
      hrawLag hhashLag hrawMode hhashMode

/-- A client that says nothing until its wait times out, while two notifications are broadcast. -/
theorem stream_since_accept_of_two :
    let _ : Hex := .lower
    let serde : SerdeJson :=
      { subscribeRequest := fun _ ↦ none
        confirmation := fun mode ↦
          "\x7b\"mode\":\"" ++ mode ++ "\",\"status\":\"subscribed\"\x7d"
        hashNotification := fun notification ↦
          some ("\x7b\"hash\":\"" ++ notification.hash ++ "\"\x7d")
        rawTxNotification := fun notification ↦
          some ("\x7b\"hash\":\"" ++ notification.hash ++ "\",\"raw_tx\":\"" ++
            notification.rawTx ++ "\"\x7d") }
    let events : List WsEvent :=
      [.accept true, .broadcast ⟨.repeatByte 1, [2, 3]⟩, .connection 0 (.handshake true),
        .connection 0 (.subscription .timeout), .connection 0 (.send true),
        .broadcast ⟨.repeatByte 4, [5]⟩, .connection 0 .receive, .connection 0 (.send true),
        .connection 0 .receive]
    let server := run (WsServer.step serde) (.initial 4) events
    ∀ connection ∈ server.connections[0]?, NeverLagged connection.received ∧
      receivedValues connection.received ++ server.sent.drop connection.next =
        server.sent.drop connection.acceptedAt := by
  intro hex serde events server
  have hserde : ∀ mode notification, serde.notification mode notification =
      some (((serde.notification mode notification)).getD "") := by
    intro mode notification
    unfold SerdeJson.notification
    split_ifs <;> rfl
  exact (stream_since_accept serde _ hserde 4 4 (Nat.le_refl 4) events).2.1 0 (by decide)

end Clients

end SentryNode
