import SentryNode.Dedup
import SentryNode.Hex
import SentryNode.WsServer

/-!
# The transaction forwarder

Validated transactions are queued for the forwarding loop. The loop takes them one at a time, drops
the duplicates, broadcasts the others to the WebSocket subscribers and, where endpoints are
configured, waits for a permit of the semaphore and spawns a task. The task posts the transaction to
one endpoint after the other, waits for each reply, goes on whatever the reply is, and gives its
permit back at the end.

The loop and its tasks run concurrently. `ForwardingLoop.step` moves one of them at a time, and the
posts are recorded in the order in which they are sent. When a request is answered, and whether it
is, is left to the events. The semaphore is never closed, so an acquisition only waits.
-/

set_option autoImplicit false
set_option relaxedAutoImplicit false

namespace SentryNode

open Library

/-! ### Transactions, requests and replies -/

/-- A validated transaction ready to be forwarded. -/
structure ForwardableTx where
  hash : B256
  rawTx : List UInt8
deriving DecidableEq

/-- Configuration for backend endpoints. -/
structure BackendConfig where
  endpoints : List String
  maxConcurrent : ℕ
  bufferSize : ℕ
  dedup : DedupConfig

/-- JSON-RPC request for `eth_sendRawTransaction`. -/
structure JsonRpcRequest where
  jsonrpc : String
  method : String
  params : List String
  id : UInt64
deriving DecidableEq

/-- How a post ends. -/
inductive PostOutcome
  | sendError
  | unparsable
  | rpcError
  | success
deriving DecidableEq

/-- The request that submits a transaction. -/
def requestOf [Hex] (tx : ForwardableTx) (id : UInt64) : JsonRpcRequest where
  jsonrpc := "2.0"
  method := "eth_sendRawTransaction"
  params := ["0x" ++ Hex.encode tx.rawTx]
  id := id

/-- The notification of a transaction. -/
def notificationOf (tx : ForwardableTx) : PendingTxNotification where
  hash := tx.hash
  rawTx := tx.rawTx

/-! ### The spawned tasks -/

/-- Where a task stands: between two endpoints, waiting for a reply, or finished. -/
inductive TaskPhase
  | running
  | awaiting
  | finished
deriving DecidableEq

/-- A spawned task, with the number of endpoints it has posted to. Its permit is held until it is
finished. -/
structure ForwardingTask where
  tx : ForwardableTx
  id : UInt64
  posted : ℕ
  phase : TaskPhase
deriving DecidableEq

/-- A post: the task that sent it, the position and the address of the endpoint, and the request. -/
structure Post where
  task : ℕ
  position : ℕ
  endpoint : String
  request : JsonRpcRequest
deriving DecidableEq

namespace ForwardingTask

/-- The task has posted to the next endpoint. -/
def post (task : ForwardingTask) : ForwardingTask :=
  { task with posted := task.posted + 1, phase := .awaiting }

/-- The task has dropped its permit. -/
def finish (task : ForwardingTask) : ForwardingTask := { task with phase := .finished }

/-- The task goes on with its loop over the endpoints. -/
def goOn (task : ForwardingTask) : ForwardingTask := { task with phase := .running }

/-- The task is told how its post ended; every outcome is logged in its own way. -/
def reply (task : ForwardingTask) : PostOutcome → ForwardingTask
  | .sendError => task.goOn
  | .unparsable => task.goOn
  | .rpcError => task.goOn
  | .success => task.goOn

@[simp] theorem reply_eq_goOn (task : ForwardingTask) (outcome : PostOutcome) :
    task.reply outcome = task.goOn := by
  cases outcome <;> rfl

/-- The task holds a permit. -/
def Unfinished (task : ForwardingTask) : Prop := task.phase ≠ .finished

instance (task : ForwardingTask) : Decidable task.Unfinished := inferInstanceAs (Decidable (_ ≠ _))

theorem unfinished_of_phase {task : ForwardingTask} {phase : TaskPhase}
    (hphase : task.phase = phase) (hunfinished : phase ≠ .finished) : task.Unfinished := by
  unfold Unfinished
  rwa [hphase]

@[simp] theorem unfinished_post (task : ForwardingTask) : task.post.Unfinished := by
  show TaskPhase.awaiting ≠ .finished
  decide

@[simp] theorem unfinished_goOn (task : ForwardingTask) : task.goOn.Unfinished := by
  show TaskPhase.running ≠ .finished
  decide

@[simp] theorem not_unfinished_finish (task : ForwardingTask) : ¬ task.finish.Unfinished :=
  fun hunfinished ↦ hunfinished rfl

end ForwardingTask

/-! ### The forwarding loop -/

/-- The forwarding loop with its spawned tasks. `queue` holds what the senders have put on the
channel, `received` what the loop has taken from it, and `acquiring` the transaction for which the
loop waits for a permit. -/
structure ForwardingLoop where
  endpoints : List String
  dedup : TxDedup
  wsBroadcaster : Option WsBroadcaster
  queue : List ForwardableTx
  received : List ForwardableTx
  acquiring : Option ForwardableTx
  availablePermits : ℕ
  idCounter : UInt64
  tasks : List ForwardingTask
  posts : List Post

/-- The most permits that a semaphore can have, `usize::MAX >> 3`. -/
def maxPermits : ℕ := (2 ^ 64 - 1) / 2 ^ 3

/-- A forwarder before its first transaction; a buffer of zero, a buffer or a number of permits that
is too large, and a dedup cache of zero are refused with a panic. -/
def TxForwarder.new (config : BackendConfig) (wsBroadcaster : Option WsBroadcaster) :
    Option ForwardingLoop :=
  if 0 < config.bufferSize ∧ config.bufferSize ≤ maxPermits ∧ config.maxConcurrent ≤ maxPermits then
    (TxDedup.new config.dedup).map fun dedup ↦
      { endpoints := config.endpoints
        dedup := dedup
        wsBroadcaster := wsBroadcaster
        queue := []
        received := []
        acquiring := none
        availablePermits := config.maxConcurrent
        idCounter := 0
        tasks := []
        posts := [] }
  else none

/-- What happens: a sender queues a transaction, the loop takes the next one or obtains its permit,
a task that waits for no reply goes on, or a reply arrives. -/
inductive ForwardingEvent
  | forward (tx : ForwardableTx)
  | receive
  | acquire
  | resume (task : ℕ)
  | reply (task : ℕ) (outcome : PostOutcome)

namespace ForwardingLoop

/-- The loop takes the next transaction, unless it waits for a permit. -/
def receive (loop : ForwardingLoop) : ForwardingLoop :=
  match loop.acquiring, loop.queue with
  | none, tx :: queue =>
    let (isNew, dedup) := loop.dedup.checkAndInsert tx.hash
    let taken := { loop with dedup, queue, received := loop.received ++ [tx] }
    if isNew then
      let announced := { taken with
        wsBroadcaster := loop.wsBroadcaster.map (·.broadcast (notificationOf tx)) }
      if loop.endpoints.isEmpty then announced else { announced with acquiring := some tx }
    else taken
  | _, _ => loop

/-- The loop obtains the permit and spawns a task, which gets the next id. -/
def acquire (loop : ForwardingLoop) : ForwardingLoop :=
  match loop.acquiring with
  | some tx =>
    if loop.availablePermits = 0 then loop
    else
      { loop with
        acquiring := none
        availablePermits := loop.availablePermits - 1
        idCounter := loop.idCounter + 1
        tasks := loop.tasks ++
          [{ tx, id := loop.idCounter + 1, posted := 0, phase := .running }] }
  | none => loop

/-- A running task posts to its next endpoint, or drops its permit when there is none left. -/
def resume [Hex] (loop : ForwardingLoop) (index : ℕ) : ForwardingLoop :=
  match loop.tasks[index]? with
  | some task =>
    match task.phase, loop.endpoints[task.posted]? with
    | .running, some endpoint =>
      { loop with
        tasks := loop.tasks.set index task.post
        posts := loop.posts ++
          [{ task := index
             position := task.posted
             endpoint
             request := requestOf task.tx task.id }] }
    | .running, none =>
      { loop with
        tasks := loop.tasks.set index task.finish
        availablePermits := loop.availablePermits + 1 }
    | _, _ => loop
  | none => loop

/-- A task that waits for a reply is told the outcome. -/
def reply (loop : ForwardingLoop) (index : ℕ) (outcome : PostOutcome) : ForwardingLoop :=
  match loop.tasks[index]? with
  | some task =>
    if task.phase = .awaiting then
      { loop with tasks := loop.tasks.set index (task.reply outcome) }
    else loop
  | none => loop

def step [Hex] (loop : ForwardingLoop) : ForwardingEvent → ForwardingLoop
  | .forward tx => { loop with queue := loop.queue ++ [tx] }
  | .receive => loop.receive
  | .acquire => loop.acquire
  | .resume index => loop.resume index
  | .reply index outcome => loop.reply index outcome

/-- The number of tasks that hold a permit. -/
def unfinished (loop : ForwardingLoop) : ℕ := loop.tasks.countP fun task ↦ task.Unfinished

end ForwardingLoop

/-! ### What a step can do -/

namespace ForwardingLoop

/-- The loop waits, drops a duplicate, or announces a transaction and then needs a permit if there
are endpoints. -/
theorem receive_cases (loop : ForwardingLoop) :
    loop.receive = loop ∨ ∃ tx queue, loop.acquiring = none ∧ loop.queue = tx :: queue ∧
      ((loop.dedup.checkAndInsert tx.hash).1 = false ∧
          loop.receive = { loop with
            dedup := (loop.dedup.checkAndInsert tx.hash).2
            queue := queue
            received := loop.received ++ [tx] } ∨
        (loop.dedup.checkAndInsert tx.hash).1 = true ∧
          loop.receive = { loop with
            dedup := (loop.dedup.checkAndInsert tx.hash).2
            wsBroadcaster := loop.wsBroadcaster.map (·.broadcast (notificationOf tx))
            queue := queue
            received := loop.received ++ [tx]
            acquiring := if loop.endpoints.isEmpty then none else some tx }) := by
  unfold receive
  split
  next tx queue hnone hqueue =>
    refine Or.inr ⟨tx, queue, hnone, hqueue, ?_⟩
    by_cases hnew : (loop.dedup.checkAndInsert tx.hash).1
    · refine Or.inr ⟨hnew, ?_⟩
      by_cases hempty : loop.endpoints.isEmpty
      · simp only [hnew, hempty, if_true, hnone]
      · simp only [hnew, hempty, if_true, if_false, Bool.false_eq_true]
    · rw [Bool.not_eq_true] at hnew
      refine Or.inl ⟨hnew, ?_⟩
      simp only [hnew, if_false, Bool.false_eq_true]
  next => exact Or.inl rfl

/-- The loop waits, or spawns a task for the transaction it holds. -/
theorem acquire_cases (loop : ForwardingLoop) :
    loop.acquire = loop ∨ ∃ tx, loop.acquiring = some tx ∧ 0 < loop.availablePermits ∧
      loop.acquire = { loop with
        acquiring := none
        availablePermits := loop.availablePermits - 1
        idCounter := loop.idCounter + 1
        tasks := loop.tasks ++
          [{ tx, id := loop.idCounter + 1, posted := 0, phase := .running }] } := by
  unfold acquire
  split
  next tx hacquiring =>
    by_cases hpermits : loop.availablePermits = 0
    · exact Or.inl (if_pos hpermits)
    · exact Or.inr ⟨tx, hacquiring, Nat.pos_of_ne_zero hpermits, if_neg hpermits⟩
  next => exact Or.inl rfl

/-- A task waits, posts to its next endpoint, or drops its permit after the last one. -/
theorem resume_cases [Hex] (loop : ForwardingLoop) (index : ℕ) :
    loop.resume index = loop ∨
      (∃ task endpoint, loop.tasks[index]? = some task ∧ task.phase = .running ∧
        loop.endpoints[task.posted]? = some endpoint ∧
        loop.resume index = { loop with
          tasks := loop.tasks.set index task.post
          posts := loop.posts ++
            [{ task := index
               position := task.posted
               endpoint
               request := requestOf task.tx task.id }] }) ∨
      ∃ task, loop.tasks[index]? = some task ∧ task.phase = .running ∧
        loop.endpoints[task.posted]? = none ∧
        loop.resume index = { loop with
          tasks := loop.tasks.set index task.finish
          availablePermits := loop.availablePermits + 1 } := by
  unfold resume
  split
  next task htask =>
    split
    next endpoint hphase hendpoint =>
      exact Or.inr (Or.inl ⟨task, endpoint, htask, hphase, hendpoint, rfl⟩)
    next hphase hendpoint => exact Or.inr (Or.inr ⟨task, htask, hphase, hendpoint, rfl⟩)
    next => exact Or.inl rfl
  next => exact Or.inl rfl

/-- Nothing waits for the reply, or the task goes on whatever the reply is. -/
theorem reply_cases (loop : ForwardingLoop) (index : ℕ) (outcome : PostOutcome) :
    loop.reply index outcome = loop ∨ ∃ task, loop.tasks[index]? = some task ∧
      task.phase = .awaiting ∧
      loop.reply index outcome = { loop with tasks := loop.tasks.set index task.goOn } := by
  unfold reply
  split
  next task htask =>
    by_cases hphase : task.phase = .awaiting
    · rw [if_pos hphase, ForwardingTask.reply_eq_goOn]
      exact Or.inr ⟨task, htask, hphase, rfl⟩
    · exact Or.inl (if_neg hphase)
  next => exact Or.inl rfl

end ForwardingLoop

/-! ### What the loop accepts -/

/-- The deduplicator after a list of transactions. -/
def TxDedup.after (dedup : TxDedup) (txs : List ForwardableTx) : TxDedup :=
  txs.foldl (fun dedup tx ↦ (dedup.checkAndInsert tx.hash).2) dedup

/-- The transactions of a list on which `checkAndInsert` returns true, called on one after the
other. -/
def TxDedup.accepted : TxDedup → List ForwardableTx → List ForwardableTx
  | _, [] => []
  | dedup, tx :: txs =>
    let (isNew, dedup) := dedup.checkAndInsert tx.hash
    if isNew then tx :: dedup.accepted txs else dedup.accepted txs

theorem TxDedup.after_concat (dedup : TxDedup) (txs : List ForwardableTx) (tx : ForwardableTx) :
    dedup.after (txs ++ [tx]) = ((dedup.after txs).checkAndInsert tx.hash).2 := by
  rw [TxDedup.after, List.foldl_append]
  rfl

theorem TxDedup.accepted_cons (dedup : TxDedup) (tx : ForwardableTx) (txs : List ForwardableTx) :
    dedup.accepted (tx :: txs) =
      if (dedup.checkAndInsert tx.hash).1 then
        tx :: (dedup.checkAndInsert tx.hash).2.accepted txs
      else (dedup.checkAndInsert tx.hash).2.accepted txs := rfl

theorem TxDedup.accepted_concat (dedup : TxDedup) (txs : List ForwardableTx) (tx : ForwardableTx) :
    dedup.accepted (txs ++ [tx]) =
      dedup.accepted txs ++ if ((dedup.after txs).checkAndInsert tx.hash).1 then [tx] else [] := by
  induction txs generalizing dedup with
  | nil => rfl
  | cons first txs ih =>
    have hafter : dedup.after (first :: txs) = (dedup.checkAndInsert first.hash).2.after txs := rfl
    rw [List.cons_append, accepted_cons, accepted_cons, hafter, ih]
    by_cases hfirst : (dedup.checkAndInsert first.hash).1
    · rw [if_pos hfirst, if_pos hfirst, List.cons_append]
    · rw [if_neg hfirst, if_neg hfirst]

theorem TxDedup.accepted_sublist (dedup : TxDedup) (txs : List ForwardableTx) :
    (dedup.accepted txs).Sublist txs := by
  induction txs generalizing dedup with
  | nil => exact List.Sublist.refl _
  | cons tx txs ih =>
    rw [accepted_cons]
    by_cases hnew : (dedup.checkAndInsert tx.hash).1
    · rw [if_pos hnew]
      exact (ih _).cons_cons tx
    · rw [if_neg hnew]
      exact (ih _).cons tx

/-- The hashes accepted are the misses of the window of the hashes seen. -/
theorem TxDedup.map_hash_accepted {dedup : TxDedup} {history : List B256}
    (hkeys : dedup.cache.keys = Recency.window dedup.cache.capacity history)
    (txs : List ForwardableTx) :
    (dedup.accepted txs).map (·.hash) =
      Recency.windowMisses dedup.cache.capacity history (txs.map (·.hash)) := by
  induction txs generalizing dedup history with
  | nil => rfl
  | cons tx txs ih =>
    have hcapacity : (dedup.checkAndInsert tx.hash).2.cache.capacity = dedup.cache.capacity :=
      TxDedup.capacity_isNew _ _
    have hnext : (dedup.checkAndInsert tx.hash).2.cache.keys =
        Recency.window dedup.cache.capacity (tx.hash :: history) := by
      rw [← Recency.touch_window, ← hkeys]
      exact TxDedup.keys_isNew _ _
    have hrest := ih (hcapacity.symm ▸ hnext)
    rw [hcapacity] at hrest
    have hseen : (dedup.checkAndInsert tx.hash).1 = false ↔
        tx.hash ∈ Recency.window dedup.cache.capacity history :=
      hkeys ▸ TxDedup.isNew_eq_false_iff
    rw [accepted_cons, List.map_cons, Recency.windowMisses, ← hrest]
    by_cases hnew : (dedup.checkAndInsert tx.hash).1
    · rw [if_pos hnew, if_neg (mt hseen.mpr (by simp [hnew])), List.map_cons]
    · rw [if_neg hnew, if_pos (hseen.mp (by simpa using hnew))]

/-- The transactions queued in a run. -/
def queuedIn (events : List ForwardingEvent) : List ForwardableTx :=
  events.flatMap fun
    | .forward tx => [tx]
    | _ => []

theorem queuedIn_concat (events : List ForwardingEvent) (event : ForwardingEvent) :
    queuedIn (events ++ [event]) = queuedIn events ++ queuedIn [event] := List.flatMap_append

end SentryNode
