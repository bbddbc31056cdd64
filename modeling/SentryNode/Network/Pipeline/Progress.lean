import SentryNode.Network.Pipeline

/-!
# The path of the transactions comes to rest

When the pool announces nothing more and nobody is accepted, the work left on the path is that of
its parts, plus what a transaction on its way still makes for the clients: two moves for each of
them. Every move decreases it (`TxPipeline.works`), so a weakly fair schedule comes to rest, and so
does each part.

`pipeline_settles` states what is at rest. Where the forwarder has a permit, or no endpoint, every
transaction heard has been received and posted, and a client that is still connected and had no lag
has got the text of every one accepted since it was.
-/

set_option autoImplicit false
set_option relaxedAutoImplicit false

namespace SentryNode.Network

open Library

variable {Rest Body Sidecar : Type*}

/-- A move of the path, as against a transaction that the pool announces or a new client. -/
def PipelineEvent.isMove : PipelineEvent Rest Sidecar → Bool
  | .pending _ _ => false
  | .send => true
  | .forwarder _ => true
  | .server event => event.isMove

namespace TxPipeline

/-! ### The work left -/

/-- The number of notifications broadcast. -/
def sent (pipeline : TxPipeline) : ℕ :=
  (pipeline.loop.wsBroadcaster.map fun wsBroadcaster ↦ wsBroadcaster.sent.length).getD 0

/-- The moves left. A transaction that has not been received makes up to two of them for each
client. -/
def work (pipeline : TxPipeline) : ℕ :=
  (2 * pipeline.loop.endpoints.length + 2 * pipeline.connections.length + 4) *
      pipeline.sending.toList.length +
    pipeline.loop.work + 2 * pipeline.connections.length * pipeline.loop.queue.length +
    (pipeline.connections.map (·.work pipeline.sent)).sum

theorem work_send [Hex] (pipeline : TxPipeline) :
    pipeline.send = pipeline ∨ pipeline.send.work < pipeline.work := by
  rcases pipeline.send_cases with heq | ⟨tx, htx, -, heq⟩
  · exact Or.inl heq
  · right
    have hforward := pipeline.loop.work_forward tx
    have hendpoints := pipeline.loop.endpoints_step (.forward tx)
    rw [heq]
    simp only [work, htx, hforward, hendpoints, Option.toList_none, Option.toList_some]
    simp only [ForwardingLoop.step, sent, List.length_append, List.length_singleton,
      List.length_nil, Nat.mul_add, Nat.mul_one]
    omega

/-- One more notification makes two moves for each connection, at most. -/
theorem sum_work_le (connections : List WsConnection) {before after : ℕ}
    (hafter : after ≤ before + 1) :
    (connections.map (·.work after)).sum ≤
      (connections.map (·.work before)).sum + 2 * connections.length := by
  induction connections with
  | nil => simp
  | cons connection connections ih =>
    simp only [List.map_cons, List.sum_cons, List.length_cons, WsConnection.work] at ih ⊢
    omega

theorem work_forwarder [Hex] (pipeline : TxPipeline) {event : ForwardingEvent}
    (hmove : event.isMove) :
    pipeline.loop.step event = pipeline.loop ∨
      work { pipeline with loop := pipeline.loop.step event } < pipeline.work := by
  rcases ForwardingLoop.works pipeline.loop event hmove with heq | hless
  · exact Or.inl heq
  · right
    have hendpoints := pipeline.loop.endpoints_step event
    rcases pipeline.loop.move_cases hmove with ⟨hqueue, hbroadcaster⟩ |
      ⟨tx, queue, hqueue, hrest, hbroadcaster⟩
    · simp only [work, sent, hendpoints, hqueue, hbroadcaster]
      omega
    · have hsent : sent { pipeline with loop := pipeline.loop.step event } ≤ pipeline.sent + 1 := by
        rcases hbroadcaster with hsame | hnew
        · simp only [sent, hsame, Nat.le_succ]
        · simp only [sent, hnew]
          cases pipeline.loop.wsBroadcaster with
          | none => exact Nat.zero_le _
          | some wsBroadcaster => simp [WsBroadcaster.broadcast]
      have hsum := sum_work_le pipeline.connections hsent
      simp only [work, hendpoints, hqueue, hrest, List.length_cons, Nat.mul_add, Nat.mul_one]
      omega

theorem work_server [Hex] (codec : TxCodec Rest Sidecar) (serde : SerdeJson) (pipeline : TxPipeline)
    {event : WsEvent} (hmove : event.isMove) :
    pipeline.step codec serde (.server event) = pipeline ∨
      (pipeline.step codec serde (.server event)).work < pipeline.work := by
  cases hserver : pipeline.wsServer with
  | none => exact Or.inl (by simp only [step, hserver])
  | some server =>
    cases event with
    | broadcast | accept | dropSenders => cases hmove
    | connection client action =>
      obtain ⟨wsBroadcaster, hbroadcaster, rfl⟩ := Option.map_eq_some_iff.mp hserver
      simp only [step, hserver, isOfClients, if_true]
      rcases WsServer.work_connection client action with heq | hless
      · exact Or.inl (by rw [heq])
      · right
        simp only [WsServer.step, WsServer.work, WsServer.sent] at hless
        simp only [work, sent, hbroadcaster, Option.map_some, Option.getD_some, WsServer.step,
          List.length_modify]
        omega

theorem works [Hex] (codec : TxCodec Rest Sidecar) (serde : SerdeJson) :
    Works PipelineEvent.isMove (step codec serde) work := by
  intro pipeline event hmove
  cases event with
  | pending txHash pool => cases hmove
  | send => exact pipeline.work_send
  | forwarder event =>
    by_cases hloop : event.isMove
    · simp only [step, hloop, if_true]
      rcases pipeline.work_forwarder hloop with heq | hless
      · exact Or.inl (by rw [heq])
      · exact Or.inr hless
    · exact Or.inl (by simp only [step, hloop, if_false, Bool.false_eq_true])
  | server event => exact work_server codec serde pipeline hmove

/-! ### The parts at rest -/

section Quiet

variable {codec : TxCodec Rest Sidecar} {serde : SerdeJson} {pipeline : TxPipeline}

/-- At rest the listening task holds a transaction only when the channel is full. -/
theorem room_of_quiet [Hex] (hquiet : Quiet PipelineEvent.isMove (step codec serde) pipeline)
    {tx : ForwardableTx} (htx : pipeline.sending = some tx) :
    pipeline.bufferSize ≤ pipeline.loop.queue.length := by
  by_contra hroom
  have hsent := congrArg TxPipeline.sending (hquiet .send rfl)
  simp only [step, send, htx, Nat.lt_of_not_le hroom, if_true] at hsent
  cases hsent

theorem quiet_loop [Hex] (hquiet : Quiet PipelineEvent.isMove (step codec serde) pipeline) :
    Quiet ForwardingEvent.isMove ForwardingLoop.step pipeline.loop := by
  intro event hmove
  have hloop := congrArg TxPipeline.loop (hquiet (.forwarder event) rfl)
  simpa only [step, hmove, if_true] using hloop

theorem quiet_server [Hex] (hquiet : Quiet PipelineEvent.isMove (step codec serde) pipeline)
    {server : WsServer} (hserver : pipeline.wsServer = some server) :
    Quiet WsEvent.isMove (WsServer.step serde) server := by
  intro event hmove
  have hconnections := congrArg TxPipeline.connections (hquiet (.server event) hmove)
  obtain ⟨wsBroadcaster, -, rfl⟩ := Option.map_eq_some_iff.mp hserver
  cases event with
  | broadcast | accept | dropSenders => cases hmove
  | connection client action =>
    simp only [step, hserver, isOfClients, if_true] at hconnections
    rw [WsServer.step] at hconnections ⊢
    exact congrArg _ hconnections

/-- A path with nothing on its way, and whose clients are caught up, is at rest. -/
theorem quiet_of_done [Hex] (hsending : pipeline.sending = none) (hqueue : pipeline.loop.queue = [])
    (hacquiring : pipeline.loop.acquiring = none)
    (htasks : ∀ task ∈ pipeline.loop.tasks, task.phase = .finished)
    (hclients : ∀ server ∈ pipeline.wsServer, ∀ connection ∈ pipeline.connections,
      CaughtUp server.sent connection) :
    Quiet PipelineEvent.isMove (step codec serde) pipeline := by
  intro event hmove
  cases event with
  | pending txHash pool => cases hmove
  | send => simp only [step, send, hsending]
  | forwarder event =>
    cases event with
    | forward tx => rfl
    | receive | acquire =>
      simp only [step, ForwardingEvent.isMove, if_true, ForwardingLoop.step, ForwardingLoop.receive,
        ForwardingLoop.acquire, hqueue, hacquiring]
    | resume index | reply index outcome =>
      simp only [step, ForwardingEvent.isMove, if_true, ForwardingLoop.step, ForwardingLoop.resume,
        ForwardingLoop.reply]
      cases htask : pipeline.loop.tasks[index]? with
      | none => rfl
      | some task =>
        have hfinished := htasks task (List.mem_of_getElem? htask)
        simp only [hfinished, reduceCtorEq, if_false]
  | server event =>
    cases event with
    | broadcast | accept | dropSenders => cases hmove
    | connection client action =>
      cases hserver : pipeline.wsServer with
      | none => simp only [step, hserver]
      | some server =>
        obtain ⟨wsBroadcaster, -, rfl⟩ := Option.map_eq_some_iff.mp hserver
        simp only [step, hserver, isOfClients, if_true, WsServer.step]
        cases hconnection : pipeline.connections[client]? with
        | none => rw [List.modify_eq_self (List.getElem?_eq_none_iff.mp hconnection)]
        | some connection =>
          have hcaughtUp := hclients _ hserver connection (List.mem_of_getElem? hconnection)
          rw [modify_eq_set hconnection, hcaughtUp.still rfl, set_eq_self hconnection]

end Quiet

end TxPipeline

/-! ### Every schedule -/

/-- What is left when nothing moves any more. Where the forwarder has a permit, or no endpoint, all
that was heard has been received; the forwarder is settled on what it was sent; and a client that is
still connected and had no lag has got the text of every transaction accepted since it was. -/
structure Settled (config : SentryConfig) (serde : SerdeJson)
    (text : String → PendingTxNotification → String) (dedup : TxDedup) (pipeline : TxPipeline) :
    Prop where
  received : 0 < config.backend.maxConcurrent ∨ config.backend.endpoints = [] →
    pipeline.loop.received = pipeline.heard
  loop : ForwardingLoop.Settled config.backend (startedBroadcaster config.websocket) dedup
    (pipeline.loop.received ++ pipeline.loop.queue) pipeline.loop
  clients : config.websocket.enabled → ∀ connection ∈ pipeline.connections,
    (∃ mode, connection.phase = .disconnected mode) ∨ ∃ mode, connection.phase = .streaming mode ∧
      (NeverLagged connection.received → connection.outbox = serde.confirmation mode ::
        (((dedup.accepted pipeline.loop.received).map notificationOf).drop
          connection.acceptedAt).map (text mode))

/-- A connection at rest that had no lag has sent everything. -/
theorem outbox_of_caughtUp {serde : SerdeJson} {text : String → PendingTxNotification → String}
    {sent : List PendingTxNotification} {connection : WsConnection}
    (hinOrder : StreamsInOrder serde text sent connection) (hcaughtUp : CaughtUp sent connection) :
    (∃ mode, connection.phase = .disconnected mode) ∨ ∃ mode, connection.phase = .streaming mode ∧
      (NeverLagged connection.received → connection.outbox =
        serde.confirmation mode :: (sent.drop connection.acceptedAt).map (text mode)) := by
  rcases hcaughtUp with hdisconnected | ⟨mode, hstreaming, hnext⟩
  · exact Or.inl hdisconnected
  · refine Or.inr ⟨mode, hstreaming, fun hnever ↦ ?_⟩
    have hreceived := hinOrder.accounts.eq_of_neverLagged hnever
    rw [hnext, List.drop_length, List.append_nil] at hreceived
    rw [hinOrder.streaming mode hstreaming, hreceived]

theorem bufferSize_pos {config : BackendConfig} {wsBroadcaster : Option WsBroadcaster}
    {start : ForwardingLoop} (hnew : TxForwarder.new config wsBroadcaster = some start) :
    0 < config.bufferSize := by
  unfold TxForwarder.new at hnew
  split_ifs at hnew with haccepted
  exact haccepted.1

theorem Keeping.settled [Hex] {config : SentryConfig} {codec : TxCodec Rest Sidecar}
    {serde : SerdeJson} {text : String → PendingTxNotification → String}
    (hserde : ∀ mode notification, serde.notification mode notification =
      some (text mode notification))
    {start : ForwardingLoop} {pipeline : TxPipeline}
    (hnew : TxForwarder.new config.backend (startedBroadcaster config.websocket) = some start)
    (hkeeping : Keeping config.backend serde start pipeline)
    (hloop : ∃ events, pipeline.loop = run ForwardingLoop.step start events)
    (hquiet : Quiet PipelineEvent.isMove (TxPipeline.step codec serde) pipeline) :
    Settled config serde text start.dedup pipeline := by
  have hsettled : ForwardingLoop.Settled config.backend (startedBroadcaster config.websocket)
      start.dedup (pipeline.loop.received ++ pipeline.loop.queue) pipeline.loop := by
    refine ForwardingLoop.settled_of_quiet hnew hkeeping.delivering ?_
      (TxPipeline.quiet_loop hquiet)
    obtain ⟨events, heq⟩ := hloop
    rw [heq]
    exact fun hpermits hendpoints ↦ ForwardingLoop.blocked_run hnew hpermits hendpoints events
  refine ⟨fun hfree ↦ ?_, hsettled, fun henabled connection hmem ↦ ?_⟩
  · have hreceived := hsettled.received
    rw [if_pos hfree, List.self_eq_append_right] at hreceived
    have hsending : pipeline.sending = none := by
      by_contra hholds
      obtain ⟨tx, htx⟩ := Option.ne_none_iff_exists'.mp hholds
      have hfull := TxPipeline.room_of_quiet hquiet htx
      rw [hreceived, hkeeping.bufferSize] at hfull
      exact absurd (bufferSize_pos hnew) (Nat.not_lt_of_le hfull)
    rw [hkeeping.heard, hreceived, hsending, Option.toList_none, List.append_nil, List.append_nil]
  · refine outbox_of_caughtUp (hkeeping.clients hserde hnew henabled hmem) ?_
    obtain ⟨server, hserver, hsent, hconnections⟩ := hkeeping.exists_wsServer hnew henabled
    rw [← hsent]
    exact caughtUp_of_quiet (hkeeping.tracked server hserver)
      (TxPipeline.quiet_server hquiet hserver) (hconnections ▸ hmem)

/-- The path of the transactions comes to rest, and everything has arrived. Assumes: a start-up that
ended with the forwarding task alive, notifications that can be serialized, and a schedule in which
the pool announces nothing more and nobody is accepted, and which is weakly fair. For every run
before it. -/
theorem pipeline_settles [Hex] (codec : TxCodec Rest Sidecar) (serde : SerdeJson)
    (text : String → PendingTxNotification → String)
    (hserde : ∀ mode notification, serde.notification mode notification =
      some (text mode notification))
    (most : Preallocation) (config : SentryConfig) (binds : String → Bool)
    (node : StartedNode Rest Body) (hstart : startUp most config binds = .done node)
    (start : TxPipeline) (hpipeline : TxPipeline.started config node = some start)
    (events : List (PipelineEvent Rest Sidecar)) (schedule : ℕ → PipelineEvent Rest Sidecar)
    (hmoves : ∀ moment, (schedule moment).isMove)
    (hfair : WeaklyFair PipelineEvent.isMove (TxPipeline.step codec serde)
      (run (TxPipeline.step codec serde) start events) schedule) :
    ∃ moment,
      let settled := stateAt (TxPipeline.step codec serde)
        (run (TxPipeline.step codec serde) start events) schedule moment
      Settled config serde text start.loop.dedup settled ∧ ∀ later ≥ moment,
        stateAt (TxPipeline.step codec serde) (run (TxPipeline.step codec serde) start events)
          schedule later = settled := by
  obtain ⟨moment, hquiet, hstays⟩ := hfair.eventually_quiet (TxPipeline.works codec serde) hmoves
  refine ⟨moment, ?_, hstays⟩
  rw [stateAt_run] at hquiet ⊢
  have hkeeping := keeping_run codec serde hstart hpipeline
    (events ++ (List.range moment).map schedule)
  have hloop := start.loop_run codec serde (events ++ (List.range moment).map schedule)
  obtain ⟨loop, retained, hnew, -, rfl⟩ := started_eq hstart hpipeline
  exact hkeeping.settled hserde hnew hloop hquiet

/-- A legacy transfer that has been posted, and a client that has received it. The text goes out,
the endpoint answers, and the task drops its permit. -/
theorem pipeline_settles_of_one :
    let _ : Hex := .lower
    let most : Preallocation :=
      { broadcastSlots := 2 ^ 56, dedupEntries := 7 * 2 ^ 55, blockEntries := 7 * 2 ^ 55 }
    let config : SentryConfig :=
      { network := ⟨2⟩
        backend := ⟨["http://a:8545"], 1, 1, ⟨4⟩⟩
        websocket := ⟨true, "127.0.0.1", 8546, 4⟩ }
    let serde : SerdeJson :=
      { subscribeRequest := fun _ ↦ none
        confirmation := fun mode ↦
          "\x7b\"mode\":\"" ++ mode ++ "\",\"status\":\"subscribed\"\x7d"
        hashNotification := fun notification ↦
          some ("\x7b\"hash\":\"" ++ notification.hash ++ "\"\x7d")
        rawTxNotification := fun notification ↦
          some ("\x7b\"hash\":\"" ++ notification.hash ++ "\",\"raw_tx\":\"" ++
            notification.rawTx ++ "\"\x7d") }
    let tx : EthPooledTransaction Unit Unit :=
      { transaction :=
          { sender := .repeatByte 1, kind := .call (.repeatByte 2), chainId := some 1, nonce := 0,
            gasLimit := 21000, maxFeePerGas := 2, maxPriorityFeePerGas := none, value := 1,
            rest := .legacy () }
        blobSidecar := none
        isSome_blobSidecar := rfl }
    let encoded : List UInt8 :=
      [0xdf, 0x80, 0x02, 0x82, 0x52, 0x08, 0x94] ++ List.replicate 20 2 ++
        [0x01, 0x80, 0x25, 0x01, 0x01]
    let codec : TxCodec Unit Unit :=
      { cloneIntoConsensus := fun pooled ↦ pooled.transaction
        encoded2718 := fun _ ↦ encoded
        encodePooled := fun _ ↦ encoded
        decodePooled := fun bytes ↦ if bytes = encoded then some tx else none }
    let events : List (PipelineEvent Unit Unit) :=
      [.server (.accept true), .server (.connection 0 (.handshake true)),
        .server (.connection 0 (.subscription .timeout)), .server (.connection 0 (.send true)),
        .pending (.repeatByte 7) fun _ ↦ some tx, .send, .forwarder .receive, .forwarder .acquire,
        .forwarder (.resume 0), .server (.connection 0 .receive)]
    let schedule : ℕ → PipelineEvent Unit Unit
      | 0 => .server (.connection 0 (.send true))
      | 1 => .forwarder (.reply 0 .success)
      | 2 => .forwarder (.resume 0)
      | _ => .send
    ∃ start, (∃ node : StartedNode Unit Unit, startUp most config (fun _ ↦ true) = .done node ∧
        TxPipeline.started config node = some start) ∧
      ∃ moment,
        let settled := stateAt (TxPipeline.step codec serde)
          (run (TxPipeline.step codec serde) start events) schedule moment
        Settled config serde
          (fun mode notification ↦ (serde.notification mode notification).getD "")
          start.loop.dedup settled ∧ ∀ later ≥ moment,
            stateAt (TxPipeline.step codec serde) (run (TxPipeline.step codec serde) start events)
              schedule later = settled := by
  intro hex most config serde tx encoded codec events schedule
  have hserde : ∀ mode notification, serde.notification mode notification =
      some ((serde.notification mode notification).getD "") := by
    intro mode notification
    unfold SerdeJson.notification
    split_ifs <;> rfl
  have hrange : config.InRange most := by decide +kernel
  have hstart := @startUp_of_inRange Unit Unit _ _ hrange
  have hmoves : ∀ moment, (schedule moment).isMove
    | 0 | 1 | 2 | _ + 3 => rfl
  refine ⟨_, ⟨_, hstart, rfl⟩, pipeline_settles codec serde _ hserde most config (fun _ ↦ true) _
    hstart _ rfl events schedule hmoves ?_⟩
  refine @Quiet.weaklyFair _ _ _ _ _ _ 3 ?_ hmoves
  refine TxPipeline.quiet_of_done (by decide +kernel) (by decide +kernel) (by decide +kernel)
    (by decide +kernel) fun server hserver connection hmem ↦ ?_
  have hstreaming :
      connection.phase = .streaming "raw" ∧ connection.next = server.sent.length := by
    revert connection hmem
    revert server hserver
    decide +kernel
  exact Or.inr ⟨"raw", hstreaming⟩

end SentryNode.Network
