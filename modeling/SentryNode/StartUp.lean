import Mathlib.Data.Nat.Log
import SentryNode.BlockCache
import SentryNode.WsServer.Connection

/-!
# Starting the node

The configuration is read from a file, and no number in it is checked. Each goes to a constructor
that has a range of its own: the broadcast channel of the WebSocket server, the channel to the
forwarding task, inside that detached task its semaphore and its deduplicator, and at last the block
cache. A constructor panics on a number out of its range. A panic of the task is seen by nobody, and
the node goes on without it. The block cache uses its default for zero.

The broadcast channel and the LRU caches allocate all of their capacity at once, and panic also when
it overflows what can be allocated. Where that is depends on the sizes of their elements, so the
bounds are a parameter (`Preallocation`).

`startUp` runs these constructors in their order, in front of an environment that decides which
addresses can be bound. `startUp_alive_iff` states for which configurations no panic is reached, so
that the forwarding task is there for the first transaction. What does not depend on the
configuration (the HTTP client, the peer-to-peer network) is left out.
-/

set_option autoImplicit false
set_option relaxedAutoImplicit false

namespace SentryNode

variable {Rest Body : Type*}

/-! ### Configurations -/

/-- Configuration for the WebSocket server. -/
structure WsConfig where
  enabled : Bool
  addr : String
  port : UInt16
  capacity : ℕ

def WsConfig.default : WsConfig where
  enabled := true
  addr := "0.0.0.0"
  port := 8546
  capacity := 4096

/-- The network configuration, as far as it is read here: the number of recent blocks to cache. -/
structure NetworkConfigFile where
  blockCacheSize : ℕ

def NetworkConfigFile.default : NetworkConfigFile where
  blockCacheSize := 256

def DedupConfig.default : DedupConfig where
  cacheSize := 100000

def BackendConfig.default : BackendConfig where
  endpoints := ["http://localhost:8545"]
  maxConcurrent := 64
  bufferSize := 4096
  dedup := .default

/-- Top-level configuration. -/
structure SentryConfig where
  network : NetworkConfigFile
  backend : BackendConfig
  websocket : WsConfig

def SentryConfig.default : SentryConfig where
  network := .default
  backend := .default
  websocket := .default

/-! ### Start-up -/

/-- The largest capacity of a broadcast channel, `usize::MAX / 2`. -/
def maxBroadcastCapacity : ℕ := (2 ^ 64 - 1) / 2

/-- How a step of the start-up ends: with a value, with an error that is returned, or with a
panic. -/
inductive StartResult (A : Type*)
  | done (value : A)
  | error
  | panic

def StartResult.bind {A B : Type*} : StartResult A → (A → StartResult B) → StartResult B
  | .done value, next => next value
  | .error, _ => .error
  | .panic, _ => .panic

/-- The most that can be allocated at once: slots in the buffer of the broadcast channel, entries in
the cache of the deduplicator and in the maps of the block cache. More of them would take more than
`isize::MAX` bytes, and the constructor panics before it asks for memory. -/
structure Preallocation where
  broadcastSlots : ℕ
  dedupEntries : ℕ
  blockEntries : ℕ

/-- The capacity of a broadcast channel, rounded up to a power of two. -/
def broadcastCapacity (capacity : ℕ) : ℕ := 2 ^ Nat.clog 2 capacity

/-- A broadcast channel. It retains its capacity, rounded up, and its buffer is allocated at
once. -/
def broadcastChannel (most : Preallocation) (capacity : ℕ) : StartResult WsServer :=
  if 0 < capacity ∧ capacity ≤ maxBroadcastCapacity ∧
      broadcastCapacity capacity ≤ most.broadcastSlots then
    .done (.initial (broadcastCapacity capacity))
  else .panic

/-- Start the WebSocket server. -/
def startWsServer (most : Preallocation) (config : WsConfig) (binds : String → Bool) :
    StartResult WsServer :=
  (broadcastChannel most config.capacity).bind fun server ↦
    if binds (config.addr ++ ":" ++ toString config.port) then .done server else .error

/-- The forwarding task up to its first receive, none when it panics. -/
def forwardingTask (most : Preallocation) (config : BackendConfig)
    (wsBroadcaster : Option WsBroadcaster) : Option ForwardingLoop :=
  if config.maxConcurrent ≤ maxPermits ∧ config.dedup.cacheSize ≤ most.dedupEntries then
    (TxDedup.new config.dedup).map fun dedup ↦
      { endpoints := config.endpoints
        dedup := dedup
        wsBroadcaster := wsBroadcaster
        queue := []
        received := []
        acquiring := none
        availablePermits := config.maxConcurrent
        idCounter := 0
        tasks := []
        posts := [] }
  else none

/-- The node after its start-up. The forwarding task is there unless it has panicked. -/
structure StartedNode (Rest Body : Type*) where
  wsServer : Option WsServer
  forwardingLoop : Option ForwardingLoop
  blockCache : BlockCache Rest Body

/-- Create the transaction forwarder: a channel, and the spawned task. -/
def startForwarder (most : Preallocation) (config : BackendConfig)
    (wsBroadcaster : Option WsBroadcaster) : StartResult (Option ForwardingLoop) :=
  if 0 < config.bufferSize ∧ config.bufferSize ≤ maxPermits then
    .done (forwardingTask most config wsBroadcaster)
  else .panic

/-- The WebSocket server, where it is enabled. -/
def startWebsocket (most : Preallocation) (config : WsConfig) (binds : String → Bool) :
    StartResult (Option WsServer) :=
  if config.enabled then (startWsServer most config binds).bind fun server ↦ .done (some server)
  else .done none

/-- The block cache. Its maps have the configured capacity, or the default in place of zero. -/
def startBlockCache (most : Preallocation) (config : NetworkConfigFile) :
    StartResult (BlockCache Rest Body) :=
  if BlockCache.effectiveCapacity config.blockCacheSize ≤ most.blockEntries then
    .done (.new config.blockCacheSize)
  else .panic

/-- The start-up, with the addresses that can be bound. -/
def startUp (most : Preallocation) (config : SentryConfig) (binds : String → Bool) :
    StartResult (StartedNode Rest Body) :=
  (startWebsocket most config.websocket binds).bind fun wsServer ↦
    (startForwarder most config.backend
        (wsServer.map fun server ↦ server.channel.wsBroadcaster)).bind fun forwardingLoop ↦
      (startBlockCache most config.network).bind fun blockCache ↦
        .done { wsServer, forwardingLoop, blockCache }

variable {most : Preallocation}

/-- A forwarder whose channel and task both start is one as it is modelled elsewhere. -/
theorem txForwarder_new_of_start {config : BackendConfig} {wsBroadcaster : Option WsBroadcaster}
    {loop : ForwardingLoop}
    (hstart : startForwarder most config wsBroadcaster = .done (some loop)) :
    TxForwarder.new config wsBroadcaster = some loop := by
  unfold startForwarder forwardingTask at hstart
  split_ifs at hstart with hbuffer htask
  · rw [TxForwarder.new, if_pos ⟨hbuffer.1, hbuffer.2, htask.1⟩]
    exact StartResult.done.inj hstart
  · cases StartResult.done.inj hstart

/-- The channel of a started server retains at least the configured capacity. -/
theorem le_retained_of_startWsServer {config : WsConfig} {binds : String → Bool}
    {server : WsServer} (hserver : startWsServer most config binds = .done server) :
    config.capacity ≤ server.channel.retained := by
  unfold startWsServer broadcastChannel at hserver
  by_cases hcapacity : 0 < config.capacity ∧ config.capacity ≤ maxBroadcastCapacity ∧
      broadcastCapacity config.capacity ≤ most.broadcastSlots
  · rw [if_pos hcapacity, StartResult.bind] at hserver
    split_ifs at hserver
    obtain rfl := StartResult.done.inj hserver
    exact Nat.le_pow_clog (by decide) config.capacity
  · rw [if_neg hcapacity] at hserver
    cases hserver

/-! ### Which configurations start -/

/-- The WebSocket server does not panic. -/
def WsConfig.InRange (most : Preallocation) (config : WsConfig) : Prop :=
  config.enabled → 0 < config.capacity ∧ config.capacity ≤ maxBroadcastCapacity ∧
    broadcastCapacity config.capacity ≤ most.broadcastSlots

/-- The channel to the forwarding task can be made, and the task does not panic. -/
structure BackendConfig.InRange (most : Preallocation) (config : BackendConfig) : Prop where
  bufferSize_pos : 0 < config.bufferSize
  bufferSize_le : config.bufferSize ≤ maxPermits
  maxConcurrent_le : config.maxConcurrent ≤ maxPermits
  cacheSize_pos : 0 < config.dedup.cacheSize
  cacheSize_le : config.dedup.cacheSize ≤ most.dedupEntries

/-- The block cache does not panic. -/
def NetworkConfigFile.InRange (most : Preallocation) (config : NetworkConfigFile) : Prop :=
  BlockCache.effectiveCapacity config.blockCacheSize ≤ most.blockEntries

/-- Every number is in the range of what it is passed to. -/
structure SentryConfig.InRange (most : Preallocation) (config : SentryConfig) : Prop where
  network : config.network.InRange most
  backend : config.backend.InRange most
  websocket : config.websocket.InRange most

instance (config : WsConfig) : Decidable (config.InRange most) :=
  inferInstanceAs (Decidable (config.enabled → _))

instance (config : NetworkConfigFile) : Decidable (config.InRange most) :=
  inferInstanceAs (Decidable (_ ≤ _))

instance (config : BackendConfig) : Decidable (config.InRange most) :=
  decidable_of_iff (0 < config.bufferSize ∧ config.bufferSize ≤ maxPermits ∧
      config.maxConcurrent ≤ maxPermits ∧ 0 < config.dedup.cacheSize ∧
      config.dedup.cacheSize ≤ most.dedupEntries)
    ⟨fun ⟨hpos, hle, hpermits, hcachePos, hcacheLe⟩ ↦ ⟨hpos, hle, hpermits, hcachePos, hcacheLe⟩,
      fun ⟨hpos, hle, hpermits, hcachePos, hcacheLe⟩ ↦ ⟨hpos, hle, hpermits, hcachePos, hcacheLe⟩⟩

instance (config : SentryConfig) : Decidable (config.InRange most) :=
  decidable_of_iff (config.network.InRange most ∧ config.backend.InRange most ∧
      config.websocket.InRange most)
    ⟨fun ⟨hnetwork, hbackend, hwebsocket⟩ ↦ ⟨hnetwork, hbackend, hwebsocket⟩,
      fun ⟨hnetwork, hbackend, hwebsocket⟩ ↦ ⟨hnetwork, hbackend, hwebsocket⟩⟩

/-- No panic is reached. When the start-up ends without an error, the forwarding task is there. -/
def StartResult.Alive : StartResult (StartedNode Rest Body) → Prop
  | .done node => node.forwardingLoop.isSome
  | .error => True
  | .panic => False

theorem isSome_forwardingTask_iff (config : BackendConfig)
    (wsBroadcaster : Option WsBroadcaster) : (forwardingTask most config wsBroadcaster).isSome ↔
      (config.maxConcurrent ≤ maxPermits ∧ config.dedup.cacheSize ≤ most.dedupEntries) ∧
        0 < config.dedup.cacheSize := by
  unfold forwardingTask TxDedup.new
  split_ifs with hstarts hsize
  · simp [hstarts, hsize]
  · simp [hsize]
  · simp [hstarts]

/-- The last part of the start-up. -/
theorem alive_startBlockCache_iff (config : NetworkConfigFile) (wsServer : Option WsServer)
    (forwardingLoop : Option ForwardingLoop) :
    ((startBlockCache most config : StartResult (BlockCache Rest Body)).bind fun blockCache ↦
      .done { wsServer, forwardingLoop, blockCache }).Alive ↔
        forwardingLoop.isSome ∧ config.InRange most := by
  unfold startBlockCache NetworkConfigFile.InRange
  split_ifs with hentries
  · simp [StartResult.bind, StartResult.Alive, hentries]
  · simp [StartResult.bind, StartResult.Alive, hentries]

/-- The part of the start-up after the WebSocket server. -/
theorem alive_startForwarder_iff (config : BackendConfig) (network : NetworkConfigFile)
    (wsBroadcaster : Option WsBroadcaster) (wsServer : Option WsServer) :
    ((startForwarder most config wsBroadcaster).bind fun forwardingLoop ↦
      (startBlockCache most network : StartResult (BlockCache Rest Body)).bind fun blockCache ↦
        .done { wsServer, forwardingLoop, blockCache }).Alive ↔
      config.InRange most ∧ network.InRange most := by
  unfold startForwarder
  split_ifs with hbuffer
  · rw [StartResult.bind, alive_startBlockCache_iff, isSome_forwardingTask_iff]
    refine and_congr_left fun _ ↦ ⟨fun htask ↦ ?_, fun hrange ↦ ?_⟩
    · exact ⟨hbuffer.1, hbuffer.2, htask.1.1, htask.2, htask.1.2⟩
    · exact ⟨⟨hrange.maxConcurrent_le, hrange.cacheSize_le⟩, hrange.cacheSize_pos⟩
  · exact iff_of_false id fun hrange ↦ hbuffer ⟨hrange.1.bufferSize_pos, hrange.1.bufferSize_le⟩

/-- The WebSocket server panics exactly on a capacity out of range. -/
theorem startWebsocket_eq_panic_iff (config : WsConfig) (binds : String → Bool) :
    startWebsocket most config binds = .panic ↔ ¬ config.InRange most := by
  unfold startWebsocket startWsServer broadcastChannel WsConfig.InRange
  by_cases henabled : config.enabled
  · by_cases hcapacity : 0 < config.capacity ∧ config.capacity ≤ maxBroadcastCapacity ∧
        broadcastCapacity config.capacity ≤ most.broadcastSlots
    · rw [if_pos henabled, if_pos hcapacity]
      simp only [StartResult.bind]
      split_ifs <;> simp [henabled, hcapacity]
    · rw [if_pos henabled, if_neg hcapacity]
      simp [henabled, hcapacity, StartResult.bind]
  · simp [henabled]

/-- Where every address can be bound, the WebSocket server starts or panics. -/
theorem startWebsocket_ne_error (config : WsConfig) :
    startWebsocket most config (fun _ ↦ true) ≠ .error := by
  unfold startWebsocket startWsServer broadcastChannel
  simp only [if_true]
  split_ifs <;> simp [StartResult.bind]

/-- In range, and with its address bound, the WebSocket server starts. -/
theorem startWebsocket_of_inRange {config : WsConfig} (hrange : config.InRange most) :
    startWebsocket most config (fun _ ↦ true) = .done
      (if config.enabled then some (.initial (broadcastCapacity config.capacity)) else none) := by
  unfold startWebsocket startWsServer broadcastChannel
  by_cases henabled : config.enabled
  · rw [if_pos henabled, if_pos henabled, if_pos (hrange henabled)]
    rfl
  · rw [if_neg henabled, if_neg henabled]

/-- The node that starts in range, where every address can be bound. -/
theorem startUp_of_inRange {config : SentryConfig} (hrange : config.InRange most) :
    let wsServer : Option WsServer :=
      if config.websocket.enabled then
        some (.initial (broadcastCapacity config.websocket.capacity))
      else none
    (startUp most config fun _ ↦ true : StartResult (StartedNode Rest Body)) = .done
      { wsServer
        forwardingLoop := forwardingTask most config.backend
          (wsServer.map fun server ↦ server.channel.wsBroadcaster)
        blockCache := .new config.network.blockCacheSize } := by
  intro wsServer
  obtain ⟨hnetwork, hbackend, hwebsocket⟩ := hrange
  have hblocks : BlockCache.effectiveCapacity config.network.blockCacheSize ≤ most.blockEntries :=
    hnetwork
  rw [startUp, startWebsocket_of_inRange hwebsocket, StartResult.bind, startForwarder,
    if_pos ⟨hbackend.bufferSize_pos, hbackend.bufferSize_le⟩, StartResult.bind, startBlockCache,
    if_pos hblocks, StartResult.bind]

/-- A start-up that can bind every address stays alive in range only. -/
theorem inRange_of_alive {config : SentryConfig}
    (halive : (startUp most config fun _ ↦ true : StartResult (StartedNode Rest Body)).Alive) :
    config.InRange most := by
  unfold startUp at halive
  cases hwebsocket : startWebsocket most config.websocket fun _ ↦ true with
  | done wsServer =>
    rw [hwebsocket] at halive
    have hrange : config.websocket.InRange most := by
      by_contra hout
      rw [← startWebsocket_eq_panic_iff _ fun _ ↦ true, hwebsocket] at hout
      cases hout
    obtain ⟨hbackend, hnetwork⟩ := (alive_startForwarder_iff _ _ _ _).mp halive
    exact ⟨hnetwork, hbackend, hrange⟩
  | error => exact absurd hwebsocket (startWebsocket_ne_error _)
  | panic =>
    rw [hwebsocket] at halive
    exact halive.elim

/-- Which configurations start. Whatever can be allocated at once and whatever addresses can be
bound, no panic is reached and the forwarding task is there, exactly when every number is in the
range of what it is passed to. -/
theorem startUp_alive_iff (most : Preallocation) (config : SentryConfig) :
    (∀ binds, (startUp most config binds : StartResult (StartedNode Rest Body)).Alive) ↔
      config.InRange most := by
  refine ⟨fun halive ↦ inRange_of_alive (halive fun _ ↦ true), ?_⟩
  rintro ⟨hnetwork, hbackend, hwebsocket⟩ binds
  unfold startUp
  cases hserver : startWebsocket most config.websocket binds with
  | done wsServer => exact (alive_startForwarder_iff _ _ _ _).mpr ⟨hbackend, hnetwork⟩
  | error => trivial
  | panic => exact absurd hwebsocket ((startWebsocket_eq_panic_iff _ _).mp hserver)

/-- The default configuration, with a dedup cache of size zero: the forwarding task panics, and the
node goes on without it. Slots of 80 bytes, and entries of 17 with their tables filled to seven
eighths, take no more than `isize::MAX` bytes up to these numbers. -/
theorem startUp_dead_of_no_cache :
    let most : Preallocation :=
      { broadcastSlots := 2 ^ 56, dedupEntries := 7 * 2 ^ 55, blockEntries := 7 * 2 ^ 55 }
    let config : SentryConfig :=
      { SentryConfig.default with
        backend := { BackendConfig.default with dedup := { cacheSize := 0 } } }
    ¬ (startUp most config fun _ ↦ true : StartResult (StartedNode Unit Unit)).Alive := by
  intro most config halive
  exact absurd (inRange_of_alive halive).backend.cacheSize_pos (Nat.lt_irrefl 0)

/-- The default configuration is in range, where as much as it asks for can be allocated. -/
theorem inRange_default (hslots : 4096 ≤ most.broadcastSlots) (hdedup : 100000 ≤ most.dedupEntries)
    (hblocks : 256 ≤ most.blockEntries) : SentryConfig.default.InRange most where
  network := hblocks
  backend := ⟨by decide, by decide, by decide, by decide, hdedup⟩
  websocket := fun _ ↦ by
    have hcapacity : broadcastCapacity WsConfig.default.capacity = 4096 := by decide +kernel
    exact ⟨by decide, by decide, hcapacity.le.trans hslots⟩

/-! ### Without a file -/

/-- The arguments that the configuration is made of when no file is given. -/
structure Cli where
  backends : List String
  wsPort : UInt16
  noWs : Bool
  blockCacheSize : ℕ

def Cli.default : Cli where
  backends := []
  wsPort := 8546
  noWs := false
  blockCacheSize := 256

/-- What no argument is about has its default. The default endpoint is dropped, also where no
backends are given. -/
def Cli.sentryConfig (cli : Cli) : SentryConfig where
  network := { blockCacheSize := cli.blockCacheSize }
  backend :=
    if cli.backends.isEmpty then { BackendConfig.default with endpoints := [] }
    else { BackendConfig.default with endpoints := cli.backends }
  websocket := { WsConfig.default with enabled := !cli.noWs, port := cli.wsPort }

/-- Without a file the block cache is the only capacity that an argument is about. -/
theorem inRange_sentryConfig (hslots : 4096 ≤ most.broadcastSlots)
    (hdedup : 100000 ≤ most.dedupEntries) (hblocks : 256 ≤ most.blockEntries) (cli : Cli) :
    cli.sentryConfig.InRange most ↔ cli.sentryConfig.network.InRange most := by
  obtain ⟨-, hbackend, hwebsocket⟩ := inRange_default hslots hdedup hblocks
  refine ⟨SentryConfig.InRange.network, fun hnetwork ↦ ⟨hnetwork, ?_, fun _ ↦ hwebsocket rfl⟩⟩
  unfold Cli.sentryConfig
  split_ifs <;>
    exact ⟨hbackend.bufferSize_pos, hbackend.bufferSize_le, hbackend.maxConcurrent_le,
      hbackend.cacheSize_pos, hbackend.cacheSize_le⟩

end SentryNode
