import SentryNode.Forwarder.Progress
import SentryNode.Network.PendingTransactions
import SentryNode.StartUp
import SentryNode.WsServer.Progress

/-!
# The path of a transaction through the node

Three parts of the node run side by side. The task that listens to the pool encodes each pending
transaction and sends it to the forwarder, over a channel that is bounded: it waits while the
channel is full, and hears of the next transaction afterwards. The forwarding loop takes what is in
the channel, and broadcasts over another channel, on which the connections of the WebSocket server
receive.

`TxPipeline.step` moves one part at a time. Each part makes the steps that it makes on its own
(`loop_run`, `wsServer_step`), so what holds of the parts holds of the whole, in every
interleaving: `pipeline_keeps` follows the transactions from the pool to the endpoints and to each
client.
-/

set_option autoImplicit false
set_option relaxedAutoImplicit false

namespace SentryNode.Network

open Library

variable {Rest Body Sidecar : Type*}

/-! ### The parts together -/

/-- The path of the transactions. `heard` holds what the listening task has encoded, `sending` what
it waits to send, and `loop` has the channel to the forwarder and the handle of the broadcast
channel. That channel retains the newest notifications for the connections. -/
structure TxPipeline where
  bufferSize : ℕ
  heard : List ForwardableTx
  sending : Option ForwardableTx
  loop : ForwardingLoop
  retained : ℕ
  connections : List WsConnection

/-- What happens: the listening task hears of a transaction and looks it up in the pool, or sends
what it holds; the forwarder goes on, or the WebSocket server. -/
inductive PipelineEvent (Rest Sidecar : Type*)
  | pending (txHash : B256) (pool : B256 → Option (EthPooledTransaction Rest Sidecar))
  | send
  | forwarder (event : ForwardingEvent)
  | server (event : WsEvent)

/-- A new client, or a move of one. -/
def isOfClients : WsEvent → Bool
  | .accept _ => true
  | .connection _ _ => true
  | _ => false

namespace TxPipeline

/-- The WebSocket server, where there is one. Its channel is the one that the loop broadcasts on. -/
def wsServer (pipeline : TxPipeline) : Option WsServer :=
  pipeline.loop.wsBroadcaster.map fun wsBroadcaster ↦
    { channel := { wsBroadcaster, retained := pipeline.retained, closed := false }
      connections := pipeline.connections }

/-- The listening task hears of a pending transaction, unless it waits to send. -/
def hear (codec : TxCodec Rest Sidecar) (pipeline : TxPipeline) (txHash : B256)
    (pool : B256 → Option (EthPooledTransaction Rest Sidecar)) : TxPipeline :=
  match pipeline.sending, forwardPending codec pool txHash with
  | none, some tx => { pipeline with heard := pipeline.heard ++ [tx], sending := some tx }
  | _, _ => pipeline

/-- What is held goes to the channel when there is room. -/
def send [Hex] (pipeline : TxPipeline) : TxPipeline :=
  match pipeline.sending with
  | some tx =>
    if pipeline.loop.queue.length < pipeline.bufferSize then
      { pipeline with sending := none, loop := pipeline.loop.step (.forward tx) }
    else pipeline
  | none => pipeline

/-- One event. Only the listening task queues, and only the loop broadcasts. -/
def step [Hex] (codec : TxCodec Rest Sidecar) (serde : SerdeJson) (pipeline : TxPipeline) :
    PipelineEvent Rest Sidecar → TxPipeline
  | .pending txHash pool => pipeline.hear codec txHash pool
  | .send => pipeline.send
  | .forwarder event =>
    if event.isMove then { pipeline with loop := pipeline.loop.step event } else pipeline
  | .server event =>
    match pipeline.wsServer with
    | some server =>
      if isOfClients event then
        { pipeline with connections := (server.step serde event).connections }
      else pipeline
    | none => pipeline

/-- The path after the start-up, before its first transaction. -/
def started (config : SentryConfig) (node : StartedNode Rest Body) : Option TxPipeline :=
  node.forwardingLoop.map fun loop ↦
    { bufferSize := config.backend.bufferSize
      heard := []
      sending := none
      loop
      retained := (node.wsServer.map fun server ↦ server.channel.retained).getD 0
      connections := [] }

/-! ### What a step can do -/

theorem hear_cases (codec : TxCodec Rest Sidecar) (pipeline : TxPipeline) (txHash : B256)
    (pool : B256 → Option (EthPooledTransaction Rest Sidecar)) :
    pipeline.hear codec txHash pool = pipeline ∨ ∃ tx, pipeline.sending = none ∧
      forwardPending codec pool txHash = some tx ∧ pipeline.hear codec txHash pool =
        { pipeline with heard := pipeline.heard ++ [tx], sending := some tx } := by
  unfold hear
  split
  next tx hnone htx => exact Or.inr ⟨tx, hnone, htx, rfl⟩
  next => exact Or.inl rfl

theorem send_cases [Hex] (pipeline : TxPipeline) :
    pipeline.send = pipeline ∨ ∃ tx, pipeline.sending = some tx ∧
      pipeline.loop.queue.length < pipeline.bufferSize ∧ pipeline.send =
        { pipeline with sending := none, loop := pipeline.loop.step (.forward tx) } := by
  unfold send
  split
  next tx htx =>
    by_cases hroom : pipeline.loop.queue.length < pipeline.bufferSize
    · exact Or.inr ⟨tx, htx, hroom, if_pos hroom⟩
    · exact Or.inl (if_neg hroom)
  next => exact Or.inl rfl

/-- A move of the clients changes the connections alone. -/
theorem server_eq [Hex] (codec : TxCodec Rest Sidecar) (serde : SerdeJson) (pipeline : TxPipeline)
    (event : WsEvent) : ∃ connections,
      pipeline.step codec serde (.server event) = { pipeline with connections } := by
  simp only [step]
  split
  · split_ifs
    · exact ⟨_, rfl⟩
    · exact ⟨pipeline.connections, rfl⟩
  · exact ⟨pipeline.connections, rfl⟩

/-- The forwarder makes the steps that it makes on its own. -/
theorem loop_step [Hex] (codec : TxCodec Rest Sidecar) (serde : SerdeJson) (pipeline : TxPipeline)
    (event : PipelineEvent Rest Sidecar) :
    (pipeline.step codec serde event).loop = pipeline.loop ∨
      ∃ loopEvent, (pipeline.step codec serde event).loop = pipeline.loop.step loopEvent := by
  cases event with
  | pending txHash pool =>
    left
    simp only [step]
    rcases hear_cases codec pipeline txHash pool with heq | ⟨tx, -, -, heq⟩ <;> rw [heq]
  | send =>
    simp only [step]
    rcases send_cases pipeline with heq | ⟨tx, -, -, heq⟩
    · exact Or.inl (by rw [heq])
    · exact Or.inr ⟨.forward tx, by rw [heq]⟩
  | forwarder event =>
    simp only [step]
    split_ifs
    · exact Or.inr ⟨event, rfl⟩
    · exact Or.inl rfl
  | server event =>
    obtain ⟨connections, heq⟩ := pipeline.server_eq codec serde event
    exact Or.inl (by rw [heq])

theorem loop_run [Hex] (codec : TxCodec Rest Sidecar) (serde : SerdeJson) (start : TxPipeline)
    (events : List (PipelineEvent Rest Sidecar)) :
    ∃ loopEvents, (run (step codec serde) start events).loop =
      run ForwardingLoop.step start.loop loopEvents := by
  refine run_history (fun _ (pipeline : TxPipeline) ↦ ∃ loopEvents,
    pipeline.loop = run ForwardingLoop.step start.loop loopEvents) ⟨[], rfl⟩ ?_ events
  rintro _ pipeline event ⟨before, hbefore⟩
  rcases pipeline.loop_step codec serde event with hsame | ⟨loopEvent, hnext⟩
  · exact ⟨before, hsame.trans hbefore⟩
  · exact ⟨before ++ [loopEvent], by rw [hnext, hbefore, run_concat]⟩

/-- The WebSocket server makes the steps that it makes on its own: broadcasts of the loop, and those
of its clients. -/
theorem wsServer_step [Hex] (codec : TxCodec Rest Sidecar) (serde : SerdeJson)
    (pipeline : TxPipeline) (event : PipelineEvent Rest Sidecar) :
    (pipeline.step codec serde event).wsServer = pipeline.wsServer ∨
      ∃ serverEvent, (pipeline.step codec serde event).wsServer =
        pipeline.wsServer.map (·.step serde serverEvent) := by
  cases event with
  | pending txHash pool =>
    left
    simp only [step]
    rcases hear_cases codec pipeline txHash pool with heq | ⟨tx, -, -, heq⟩ <;> rw [heq]
    rfl
  | send =>
    left
    simp only [step]
    rcases send_cases pipeline with heq | ⟨tx, -, -, heq⟩ <;> rw [heq]
    rfl
  | forwarder event =>
    by_cases hmove : event.isMove
    · simp only [step, hmove, if_true, wsServer]
      rcases pipeline.loop.move_cases hmove with ⟨-, hsame⟩ | ⟨tx, queue, -, -, hsame | hnew⟩
      · exact Or.inl (by rw [hsame])
      · exact Or.inl (by rw [hsame])
      · refine Or.inr ⟨.broadcast (notificationOf tx), ?_⟩
        rw [hnew, Option.map_map, Option.map_map]
        rfl
    · left
      simp only [step, hmove, if_false, Bool.false_eq_true]
  | server event =>
    cases hserver : pipeline.wsServer with
    | none =>
      left
      simp only [step, hserver]
    | some server =>
      by_cases hclients : isOfClients event
      · right
        obtain ⟨wsBroadcaster, hbroadcaster, rfl⟩ := Option.map_eq_some_iff.mp hserver
        refine ⟨event, ?_⟩
        cases event with
        | broadcast | dropSenders => cases hclients
        | connection client action =>
          simp only [step, hserver, hclients, if_true]
          simp only [wsServer, hbroadcaster, Option.map_some, WsServer.step]
        | accept succeeds =>
          simp only [step, hserver, hclients, if_true]
          simp only [wsServer, hbroadcaster, Option.map_some, WsServer.step]
          split_ifs <;> rfl
      · left
        simp only [step, hserver, hclients, if_false, Bool.false_eq_true]

end TxPipeline

/-! ### What holds between any two steps -/

/-- The transactions heard are received, in the channel, or held by the listening task, in this
order; the channel is within its bound; the forwarder delivers what it was sent, and the connections
receive what it broadcasts. -/
structure Keeping [Hex] (config : BackendConfig) (serde : SerdeJson) (start : ForwardingLoop)
    (pipeline : TxPipeline) : Prop where
  bufferSize : pipeline.bufferSize = config.bufferSize
  heard : pipeline.heard =
    pipeline.loop.received ++ pipeline.loop.queue ++ pipeline.sending.toList
  buffered : pipeline.loop.queue.length ≤ pipeline.bufferSize
  delivering : start.Delivering config (pipeline.loop.received ++ pipeline.loop.queue) pipeline.loop
  tracked : ∀ server ∈ pipeline.wsServer, EachTracked serde server

section Keeping

variable {config : BackendConfig} {serde : SerdeJson} {start : ForwardingLoop}
  {pipeline : TxPipeline}

/-- The forwarder keeps what it is to keep, whatever moves. -/
theorem delivering_step [Hex] {queued : List ForwardableTx} {loop : ForwardingLoop}
    (hloop : start.Delivering config queued loop) (event : ForwardingEvent) :
    start.Delivering config ((loop.step event).received ++ (loop.step event).queue)
      (loop.step event) := by
  have hserves := hloop.serves.step event
  exact ⟨hserves.queued_eq ▸ hserves, hloop.bounded.step event, hloop.posts.step event⟩

theorem Keeping.tracked_step [Hex] (hkeeping : Keeping config serde start pipeline)
    (codec : TxCodec Rest Sidecar) (event : PipelineEvent Rest Sidecar) :
    ∀ server ∈ (pipeline.step codec serde event).wsServer, EachTracked serde server := by
  intro server hserver
  rcases pipeline.wsServer_step codec serde event with hsame | ⟨serverEvent, hnext⟩
  · exact hkeeping.tracked server (hsame ▸ hserver)
  · rw [hnext] at hserver
    obtain ⟨before, hbefore, rfl⟩ := Option.map_eq_some_iff.mp hserver
    exact (hkeeping.tracked before hbefore).step serverEvent

theorem Keeping.step [Hex] (hkeeping : Keeping config serde start pipeline)
    (codec : TxCodec Rest Sidecar) (event : PipelineEvent Rest Sidecar) :
    Keeping config serde start (pipeline.step codec serde event) := by
  have htracked := hkeeping.tracked_step codec event
  have hheard := hkeeping.heard
  cases event with
  | pending txHash pool =>
    simp only [TxPipeline.step] at htracked ⊢
    rcases pipeline.hear_cases codec txHash pool with heq | ⟨tx, hnone, -, heq⟩
    · rwa [heq]
    · rw [hnone, Option.toList_none, List.append_nil] at hheard
      rw [heq] at htracked ⊢
      exact ⟨hkeeping.bufferSize, by rw [hheard, Option.toList_some], hkeeping.buffered,
        hkeeping.delivering, htracked⟩
  | send =>
    simp only [TxPipeline.step] at htracked ⊢
    rcases pipeline.send_cases with heq | ⟨tx, htx, hroom, heq⟩
    · rwa [heq]
    · rw [heq] at htracked ⊢
      refine ⟨hkeeping.bufferSize, ?_, ?_, delivering_step hkeeping.delivering _, htracked⟩
      · simp [hheard, htx, ForwardingLoop.step]
      · simpa [ForwardingLoop.step] using Nat.succ_le_of_lt hroom
  | forwarder event =>
    by_cases hmove : event.isMove
    · simp only [TxPipeline.step, hmove, if_true] at htracked ⊢
      have hnext := delivering_step hkeeping.delivering event
      have hqueued := (hkeeping.delivering.serves.step event).queued_eq
      rw [ForwardingLoop.queuedIn_of_moves (by simpa using hmove), List.append_nil] at hqueued
      refine ⟨hkeeping.bufferSize, by rw [hheard, hqueued], ?_, hnext, htracked⟩
      have hbuffered := hkeeping.buffered
      rcases pipeline.loop.move_cases hmove with ⟨hsame, -⟩ | ⟨tx, queue, hqueue, hrest, -⟩
      · rwa [hsame]
      · rw [hqueue, List.length_cons] at hbuffered
        rw [hrest]
        exact Nat.le_of_succ_le hbuffered
    · simpa only [TxPipeline.step, hmove, if_false, Bool.false_eq_true] using hkeeping
  | server event =>
    obtain ⟨connections, heq⟩ := pipeline.server_eq codec serde event
    rw [heq] at htracked ⊢
    exact ⟨hkeeping.bufferSize, hheard, hkeeping.buffered, hkeeping.delivering, htracked⟩

end Keeping

/-! ### The start -/

theorem bind_eq_done_iff {A B : Type*} {result : StartResult A} {next : A → StartResult B}
    {value : B} :
    result.bind next = .done value ↔ ∃ first, result = .done first ∧ next first = .done value := by
  cases result with
  | done first => simp [StartResult.bind]
  | error | panic => simp [StartResult.bind]

/-- The handle of the broadcast channel at the start. -/
def startedBroadcaster (config : WsConfig) : Option WsBroadcaster :=
  if config.enabled then some { sent := [] } else none

theorem wsBroadcaster_of_startWebsocket {most : Preallocation} {config : WsConfig}
    {binds : String → Bool} {wsServer : Option WsServer}
    (hserver : startWebsocket most config binds = .done wsServer) :
    (wsServer.map fun server ↦ server.channel.wsBroadcaster) = startedBroadcaster config ∧
      ∀ server ∈ wsServer, config.capacity ≤ server.channel.retained := by
  unfold startWebsocket at hserver
  unfold startedBroadcaster
  split_ifs at hserver ⊢
  · obtain ⟨server, hstarted, hdone⟩ := bind_eq_done_iff.mp hserver
    obtain rfl := StartResult.done.inj hdone
    refine ⟨?_, fun other hother ↦ ?_⟩
    · unfold startWsServer broadcastChannel at hstarted
      obtain ⟨channel, hchannel, hbound⟩ := bind_eq_done_iff.mp hstarted
      split_ifs at hchannel hbound
      obtain rfl := StartResult.done.inj hbound
      obtain rfl := StartResult.done.inj hchannel
      rfl
    · obtain rfl := Option.some.inj hother
      exact le_retained_of_startWsServer hstarted
  · obtain rfl := StartResult.done.inj hserver
    exact ⟨rfl, fun server hserver ↦ by cases hserver⟩

/-- The path after the start-up: a new forwarder, and nothing heard. -/
theorem started_eq {most : Preallocation} {config : SentryConfig} {binds : String → Bool}
    {node : StartedNode Rest Body} (hstart : startUp most config binds = .done node)
    {pipeline : TxPipeline}
    (hpipeline : TxPipeline.started config node = some pipeline) :
    ∃ loop retained,
      TxForwarder.new config.backend (startedBroadcaster config.websocket) = some loop ∧
        (config.websocket.enabled → config.websocket.capacity ≤ retained) ∧
        pipeline =
          { bufferSize := config.backend.bufferSize, heard := [], sending := none, loop, retained,
            connections := [] } := by
  obtain ⟨wsServer, hserver, hrest⟩ := bind_eq_done_iff.mp hstart
  obtain ⟨forwardingLoop, hforwarder, hcache⟩ := bind_eq_done_iff.mp hrest
  obtain ⟨blockCache, -, hdone⟩ := bind_eq_done_iff.mp hcache
  obtain rfl := StartResult.done.inj hdone
  obtain ⟨loop, rfl, rfl⟩ := Option.map_eq_some_iff.mp hpipeline
  obtain ⟨hbroadcaster, hretained⟩ := wsBroadcaster_of_startWebsocket hserver
  refine ⟨loop, _, ?_, fun henabled ↦ ?_, rfl⟩
  · rw [← hbroadcaster]
    exact txForwarder_new_of_start hforwarder
  · rw [startedBroadcaster, if_pos henabled] at hbroadcaster
    obtain ⟨server, rfl, -⟩ := Option.map_eq_some_iff.mp hbroadcaster
    exact hretained server rfl

theorem keeping_run [Hex] (codec : TxCodec Rest Sidecar) (serde : SerdeJson) {most : Preallocation}
    {config : SentryConfig} {binds : String → Bool} {node : StartedNode Rest Body}
    (hstart : startUp most config binds = .done node) {start : TxPipeline}
    (hpipeline : TxPipeline.started config node = some start)
    (events : List (PipelineEvent Rest Sidecar)) :
    Keeping config.backend serde start.loop (run (TxPipeline.step codec serde) start events) := by
  refine run_history (fun _ ↦ Keeping config.backend serde start.loop) ?_
    (fun _ _ event hkeeping ↦ hkeeping.step codec event) events
  obtain ⟨loop, retained, hnew, -, rfl⟩ := started_eq hstart hpipeline
  have hloop := (ForwardingLoop.delivering_new hnew).2.2
  have hempty := hloop.serves.queued_eq
  refine ⟨rfl, ?_, ?_, hempty ▸ hloop, ?_⟩
  · rw [Option.toList_none, List.append_nil, hempty]
  · rw [(List.append_eq_nil_iff.mp hempty.symm).2]
    exact Nat.zero_le _
  · intro server hserver
    obtain ⟨wsBroadcaster, -, rfl⟩ := Option.map_eq_some_iff.mp hserver
    exact List.forall_mem_nil _

/-! ### Every run -/

/-- What the path keeps. Every transaction heard is received, in the channel or held, in the order
in which they were heard, and the channel is within its bound. The forwarder delivers what it has
been sent once. Each client gets, in order, texts of what the deduplicator accepted. And when no
more hashes are heard than the deduplicator remembers, each of those received is accepted once, has
one task at most, and reaches each client at most once. -/
structure Keeps [Hex] (config : SentryConfig) (serde : SerdeJson)
    (text : String → PendingTxNotification → String) (dedup : TxDedup) (pipeline : TxPipeline) :
    Prop where
  heard : pipeline.heard =
    pipeline.loop.received ++ pipeline.loop.queue ++ pipeline.sending.toList
  buffered : pipeline.loop.queue.length ≤ config.backend.bufferSize
  delivers : ForwardingLoop.DeliversOnce config.backend (startedBroadcaster config.websocket) dedup
    (pipeline.loop.received ++ pipeline.loop.queue) pipeline.loop
  clients : config.websocket.enabled → ∀ connection ∈ pipeline.connections,
    StreamsInOrder serde text ((dedup.accepted pipeline.loop.received).map notificationOf)
      connection
  once : (pipeline.heard.map (·.hash)).dedup.length ≤ config.backend.dedup.cacheSize →
    ((dedup.accepted pipeline.loop.received).map (·.hash)).Nodup ∧
      (∀ tx ∈ pipeline.loop.received,
        tx.hash ∈ (dedup.accepted pipeline.loop.received).map (·.hash)) ∧
      (pipeline.loop.tasks.map (·.tx.hash)).Nodup ∧
      (config.websocket.enabled → ∀ connection ∈ pipeline.connections,
        ((receivedValues connection.received).map (·.hash)).Nodup)

/-- What is broadcast is what the deduplicator accepted. -/
theorem Keeping.exists_wsServer [Hex] {config : SentryConfig} {serde : SerdeJson}
    {start : ForwardingLoop} {pipeline : TxPipeline}
    (hnew : TxForwarder.new config.backend (startedBroadcaster config.websocket) = some start)
    (hkeeping : Keeping config.backend serde start pipeline) (henabled : config.websocket.enabled) :
    ∃ server, pipeline.wsServer = some server ∧
      server.sent = (start.dedup.accepted pipeline.loop.received).map notificationOf ∧
      server.connections = pipeline.connections := by
  have hbroadcaster := (hkeeping.delivering.deliversOnce hnew).broadcasts
  rw [startedBroadcaster, if_pos henabled, ForwardingLoop.announcing, Option.map_some,
    List.nil_append] at hbroadcaster
  rw [TxPipeline.wsServer, hbroadcaster]
  exact ⟨_, rfl, rfl, rfl⟩

theorem Keeping.clients [Hex] {config : SentryConfig} {serde : SerdeJson}
    {text : String → PendingTxNotification → String}
    (hserde : ∀ mode notification, serde.notification mode notification =
      some (text mode notification))
    {start : ForwardingLoop} {pipeline : TxPipeline}
    (hnew : TxForwarder.new config.backend (startedBroadcaster config.websocket) = some start)
    (hkeeping : Keeping config.backend serde start pipeline)
    (henabled : config.websocket.enabled) {connection : WsConnection}
    (hmem : connection ∈ pipeline.connections) :
    StreamsInOrder serde text ((start.dedup.accepted pipeline.loop.received).map notificationOf)
      connection := by
  obtain ⟨server, hserver, hsent, hconnections⟩ := hkeeping.exists_wsServer hnew henabled
  rw [← hsent]
  exact (hkeeping.tracked server hserver connection (hconnections ▸ hmem)).streamsInOrder hserde

/-- Where the deduplicator forgets nothing, it accepts each hash once. -/
theorem accepted_once {config : DedupConfig} {dedup : TxDedup}
    (hnew : TxDedup.new config = some dedup) {heard received : List ForwardableTx}
    (hreceived : received ⊆ heard)
    (hfits : (heard.map (·.hash)).dedup.length ≤ config.cacheSize) :
    ((dedup.accepted received).map (·.hash)).Nodup ∧
      ∀ tx ∈ received, tx.hash ∈ (dedup.accepted received).map (·.hash) := by
  have hstart : dedup.cache.keys = [] ∧ dedup.cache.capacity = config.cacheSize := by
    unfold TxDedup.new at hnew
    split_ifs at hnew
    obtain rfl := Option.some.inj hnew
    exact ⟨rfl, rfl⟩
  have hmisses := @TxDedup.map_hash_accepted dedup [] (by
    rw [hstart.1, Recency.window, Recency.recencyOrder_nil, List.take_nil]) received
  have hsubset : received.map (·.hash) ⊆ (heard.map (·.hash)).dedup := by
    intro hash hhash
    exact List.mem_dedup.mpr (List.map_subset _ hreceived hhash)
  rw [hmisses, hstart.2]
  obtain ⟨hnodup, hmem⟩ := Recency.windowMisses_of_fits hfits hsubset (List.nil_subset _)
  exact ⟨hnodup, fun tx htx ↦ (hmem tx.hash).mpr ⟨List.mem_map_of_mem htx, List.not_mem_nil⟩⟩

theorem Keeping.keeps [Hex] {config : SentryConfig} {serde : SerdeJson}
    {text : String → PendingTxNotification → String}
    (hserde : ∀ mode notification, serde.notification mode notification =
      some (text mode notification))
    {start : ForwardingLoop} {pipeline : TxPipeline}
    (hnew : TxForwarder.new config.backend (startedBroadcaster config.websocket) = some start)
    (hkeeping : Keeping config.backend serde start pipeline) :
    Keeps config serde text start.dedup pipeline := by
  have hdelivers := hkeeping.delivering.deliversOnce hnew
  have hbufferSize := hkeeping.bufferSize
  refine ⟨hkeeping.heard, hbufferSize ▸ hkeeping.buffered, hdelivers,
    fun henabled connection hmem ↦ hkeeping.clients hserde hnew henabled hmem, fun hfits ↦ ?_⟩
  have hreceived : pipeline.loop.received ⊆ pipeline.heard := by
    rw [hkeeping.heard, List.append_assoc]
    exact List.subset_append_left _ _
  obtain ⟨hnodup, hall⟩ := accepted_once (ForwardingLoop.dedup_of_new hnew) hreceived hfits
  refine ⟨hnodup, hall, ?_, fun henabled connection hmem ↦ ?_⟩
  · have htasks : (pipeline.loop.tasks.map (·.tx)).Sublist
        (start.dedup.accepted pipeline.loop.received) := by
      have hspawned := List.sublist_append_left (pipeline.loop.tasks.map (·.tx))
        pipeline.loop.acquiring.toList
      rw [hdelivers.spawned] at hspawned
      split_ifs at hspawned
      · exact hspawned.trans (List.nil_sublist _)
      · exact hspawned
    have hhashes := hnodup.sublist (htasks.map (·.hash))
    rwa [List.map_map] at hhashes
  · have hsublist := ((hkeeping.clients hserde hnew henabled hmem).sublist.trans
      (List.drop_sublist _ _)).map (·.hash)
    rw [List.map_map] at hsublist
    exact hnodup.sublist hsublist

/-- The path of the transactions, from the pool to the endpoints and the clients. Assumes: a
start-up that ended with the forwarding task alive, and notifications that can be serialized. For
every run: whatever the pool holds, what the endpoints answer and what the clients do, in every
interleaving. -/
theorem pipeline_keeps [Hex] (codec : TxCodec Rest Sidecar) (serde : SerdeJson)
    (text : String → PendingTxNotification → String)
    (hserde : ∀ mode notification, serde.notification mode notification =
      some (text mode notification))
    (most : Preallocation) (config : SentryConfig) (binds : String → Bool)
    (node : StartedNode Rest Body) (hstart : startUp most config binds = .done node)
    (start : TxPipeline) (hpipeline : TxPipeline.started config node = some start)
    (events : List (PipelineEvent Rest Sidecar)) :
    Keeps config serde text start.loop.dedup
      (run (TxPipeline.step codec serde) start events) := by
  have hkeeping := keeping_run codec serde hstart hpipeline events
  obtain ⟨loop, retained, hnew, -, rfl⟩ := started_eq hstart hpipeline
  exact hkeeping.keeps hserde hnew

/-- A legacy transfer that the pool announces twice, a client that asks for raw transactions, and an
endpoint that cannot be reached. -/
theorem pipeline_keeps_of_one :
    let _ : Hex := .lower
    let most : Preallocation :=
      { broadcastSlots := 2 ^ 56, dedupEntries := 7 * 2 ^ 55, blockEntries := 7 * 2 ^ 55 }
    let config : SentryConfig :=
      { network := ⟨2⟩
        backend := ⟨["http://a:8545"], 1, 1, ⟨4⟩⟩
        websocket := ⟨true, "127.0.0.1", 8546, 4⟩ }
    let serde : SerdeJson :=
      { subscribeRequest := fun _ ↦ none
        confirmation := fun mode ↦
          "\x7b\"mode\":\"" ++ mode ++ "\",\"status\":\"subscribed\"\x7d"
        hashNotification := fun notification ↦
          some ("\x7b\"hash\":\"" ++ notification.hash ++ "\"\x7d")
        rawTxNotification := fun notification ↦
          some ("\x7b\"hash\":\"" ++ notification.hash ++ "\",\"raw_tx\":\"" ++
            notification.rawTx ++ "\"\x7d") }
    let tx : EthPooledTransaction Unit Unit :=
      { transaction :=
          { sender := .repeatByte 1, kind := .call (.repeatByte 2), chainId := some 1, nonce := 0,
            gasLimit := 21000, maxFeePerGas := 2, maxPriorityFeePerGas := none, value := 1,
            rest := .legacy () }
        blobSidecar := none
        isSome_blobSidecar := rfl }
    let encoded : List UInt8 :=
      [0xdf, 0x80, 0x02, 0x82, 0x52, 0x08, 0x94] ++ List.replicate 20 2 ++
        [0x01, 0x80, 0x25, 0x01, 0x01]
    let codec : TxCodec Unit Unit :=
      { cloneIntoConsensus := fun pooled ↦ pooled.transaction
        encoded2718 := fun _ ↦ encoded
        encodePooled := fun _ ↦ encoded
        decodePooled := fun bytes ↦ if bytes = encoded then some tx else none }
    let events : List (PipelineEvent Unit Unit) :=
      [.server (.accept true), .pending (.repeatByte 7) fun _ ↦ some tx, .send,
        .pending (.repeatByte 7) fun _ ↦ some tx, .forwarder .receive, .send,
        .server (.connection 0 (.handshake true)), .server (.connection 0 (.subscription .timeout)),
        .server (.connection 0 (.send true)), .server (.connection 0 .receive),
        .forwarder .acquire, .forwarder (.resume 0), .forwarder .receive,
        .forwarder (.reply 0 .sendError), .server (.connection 0 (.send true))]
    ∃ start, (∃ node : StartedNode Unit Unit, startUp most config (fun _ ↦ true) = .done node ∧
        TxPipeline.started config node = some start) ∧
      Keeps config serde (fun mode notification ↦ (serde.notification mode notification).getD "")
        start.loop.dedup (run (TxPipeline.step codec serde) start events) := by
  intro hex most config serde tx encoded codec events
  have hserde : ∀ mode notification, serde.notification mode notification =
      some ((serde.notification mode notification).getD "") := by
    intro mode notification
    unfold SerdeJson.notification
    split_ifs <;> rfl
  have hrange : config.InRange most := by decide +kernel
  have hstart := @startUp_of_inRange Unit Unit _ _ hrange
  exact ⟨_, ⟨_, hstart, rfl⟩,
    pipeline_keeps codec serde _ hserde most config (fun _ ↦ true) _ hstart _ rfl events⟩

end SentryNode.Network
