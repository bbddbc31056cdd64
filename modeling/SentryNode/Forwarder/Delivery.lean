import Mathlib.Data.List.Range
import SentryNode.Forwarder

/-!
# What the forwarding loop delivers

Three invariants hold between any two steps of the loop and its tasks. `Serves`: what was broadcast
and handed to tasks is what the deduplicator accepted, in the order of the queue. `Bounded`: every
permit is available or held by a task. `Posts`: a task has posted its transaction to the first
endpoints, in order and once each.

`forwarding_delivers` states what follows for every run: exactly-once delivery to the subscribers
and to every endpoint. The ids are counted in 64 bits, so two transactions have the same id when a
multiple of `2 ^ 64` separates them (`ids_repeat`).
-/

set_option autoImplicit false
set_option relaxedAutoImplicit false

namespace SentryNode

open Library

namespace ForwardingLoop

/-! ### What is served -/

/-- The broadcaster after announcing some transactions. -/
def announcing (wsBroadcaster : Option WsBroadcaster) (txs : List ForwardableTx) :
    Option WsBroadcaster :=
  wsBroadcaster.map fun ws ↦ { sent := ws.sent ++ txs.map notificationOf }

/-- The loop serves the queue. What it has received was queued first; the transactions accepted
among these are broadcast and, where there are endpoints, handed to one task each, except for the
one that waits for a permit. The ids count the tasks. -/
structure Serves (start : ForwardingLoop) (queued : List ForwardableTx) (loop : ForwardingLoop) :
    Prop where
  endpoints : loop.endpoints = start.endpoints
  queued_eq : queued = loop.received ++ loop.queue
  dedup : loop.dedup = start.dedup.after loop.received
  wsBroadcaster : loop.wsBroadcaster =
    announcing start.wsBroadcaster (start.dedup.accepted loop.received)
  handed : loop.tasks.map (·.tx) ++ loop.acquiring.toList =
    if start.endpoints.isEmpty then [] else start.dedup.accepted loop.received
  idCounter : loop.idCounter = .ofNat loop.tasks.length
  ids : loop.tasks.map (·.id) = (List.range loop.tasks.length).map fun index ↦ .ofNat (index + 1)

theorem announcing_append (wsBroadcaster : Option WsBroadcaster)
    (before after : List ForwardableTx) :
    announcing wsBroadcaster (before ++ after) =
      announcing (announcing wsBroadcaster before) after := by
  cases wsBroadcaster with
  | none => rfl
  | some ws => simp [announcing]

theorem announcing_nil (wsBroadcaster : Option WsBroadcaster) :
    announcing wsBroadcaster [] = wsBroadcaster := by
  cases wsBroadcaster with
  | none => rfl
  | some ws => simp [announcing]

section Serves

variable {start loop : ForwardingLoop} {queued : List ForwardableTx}

theorem Serves.forward [Hex] (hserves : Serves start queued loop) (tx : ForwardableTx) :
    Serves start (queued ++ [tx]) (loop.step (.forward tx)) where
  endpoints := hserves.endpoints
  queued_eq := by
    show queued ++ [tx] = loop.received ++ (loop.queue ++ [tx])
    rw [hserves.queued_eq, List.append_assoc]
  dedup := hserves.dedup
  wsBroadcaster := hserves.wsBroadcaster
  handed := hserves.handed
  idCounter := hserves.idCounter
  ids := hserves.ids

/-- The loop takes a transaction and serves it when it is new: it announces it and, where there are
endpoints, holds it until it has a permit. -/
theorem Serves.take (hserves : Serves start queued loop) {tx : ForwardableTx}
    {queue new : List ForwardableTx} {acquiring : Option ForwardableTx}
    (hnone : loop.acquiring = none) (hqueue : loop.queue = tx :: queue)
    (hnew : new = if (loop.dedup.checkAndInsert tx.hash).1 then [tx] else [])
    (hacquiring : acquiring.toList = if start.endpoints.isEmpty then [] else new) :
    Serves start queued { loop with
      dedup := (loop.dedup.checkAndInsert tx.hash).2
      wsBroadcaster := announcing loop.wsBroadcaster new
      queue := queue
      received := loop.received ++ [tx]
      acquiring := acquiring } where
  endpoints := hserves.endpoints
  queued_eq := by
    rw [hserves.queued_eq, hqueue, List.append_assoc, List.singleton_append]
  dedup := by
    dsimp only
    rw [TxDedup.after_concat, ← hserves.dedup]
  wsBroadcaster := by
    dsimp only
    rw [TxDedup.accepted_concat, ← hserves.dedup, ← hnew, announcing_append,
      ← hserves.wsBroadcaster]
  handed := by
    have hhanded := hserves.handed
    rw [hnone, Option.toList_none, List.append_nil] at hhanded
    dsimp only
    rw [TxDedup.accepted_concat, ← hserves.dedup, ← hnew, hhanded, hacquiring]
    by_cases hempty : start.endpoints.isEmpty
    · rw [if_pos hempty, if_pos hempty, if_pos hempty, List.append_nil]
    · rw [if_neg hempty, if_neg hempty, if_neg hempty]
  idCounter := hserves.idCounter
  ids := hserves.ids

theorem Serves.receive (hserves : Serves start queued loop) :
    Serves start queued loop.receive := by
  rcases receive_cases loop with heq | ⟨tx, queue, hnone, hqueue, ⟨hdup, heq⟩ | ⟨hnew, heq⟩⟩
  · rwa [heq]
  · have hnothing : [] = if (loop.dedup.checkAndInsert tx.hash).1 then [tx] else [] := by
      rw [hdup, if_neg Bool.false_ne_true]
    have htaken := @Serves.take _ _ _ hserves tx queue [] none hnone hqueue hnothing (by simp)
    rw [announcing_nil, ← hnone] at htaken
    rwa [heq]
  · have htx : [tx] = if (loop.dedup.checkAndInsert tx.hash).1 then [tx] else [] := by
      rw [hnew, if_pos rfl]
    rw [heq]
    refine hserves.take hnone hqueue htx ?_
    rw [hserves.endpoints]
    by_cases hempty : start.endpoints.isEmpty
    · rw [if_pos hempty, if_pos hempty, Option.toList_none]
    · rw [if_neg hempty, if_neg hempty, Option.toList_some]

theorem Serves.acquire (hserves : Serves start queued loop) :
    Serves start queued loop.acquire := by
  rcases acquire_cases loop with heq | ⟨tx, hacquiring, -, heq⟩
  · rwa [heq]
  · have hhanded := hserves.handed
    rw [hacquiring, Option.toList_some] at hhanded
    have hcounter : loop.idCounter + 1 = .ofNat (loop.tasks.length + 1) := by
      rw [hserves.idCounter, UInt64.ofNat_add]
      rfl
    rw [heq]
    exact {
      endpoints := hserves.endpoints
      queued_eq := hserves.queued_eq
      dedup := hserves.dedup
      wsBroadcaster := hserves.wsBroadcaster
      handed := by
        dsimp only
        rw [List.map_append, List.map_singleton, Option.toList_none, List.append_nil]
        exact hhanded
      idCounter := by
        dsimp only
        rw [hcounter, List.length_append, List.length_singleton]
      ids := by
        dsimp only
        rw [List.map_append, hserves.ids, List.length_append, List.length_singleton,
          List.range_succ, List.map_append, hcounter, List.map_singleton, List.map_singleton] }

/-- A task that moves keeps its transaction and its id, and the loop keeps what it served. -/
theorem Serves.setTask (hserves : Serves start queued loop) {index : ℕ}
    {task : ForwardingTask} (moved : ForwardingTask) (htask : loop.tasks[index]? = some task)
    (htx : moved.tx = task.tx) (hid : moved.id = task.id) (availablePermits : ℕ)
    (posts : List Post) : Serves start queued
      { loop with tasks := loop.tasks.set index moved, availablePermits, posts } where
  endpoints := hserves.endpoints
  queued_eq := hserves.queued_eq
  dedup := hserves.dedup
  wsBroadcaster := hserves.wsBroadcaster
  handed := by
    dsimp only
    rw [map_set_eq htask htx, hserves.handed]
  idCounter := by
    dsimp only
    rw [List.length_set, hserves.idCounter]
  ids := by
    dsimp only
    rw [List.length_set, map_set_eq htask hid, hserves.ids]

theorem Serves.step [Hex] (hserves : Serves start queued loop) (event : ForwardingEvent) :
    Serves start (queued ++ queuedIn [event]) (loop.step event) := by
  cases event with
  | forward tx => exact hserves.forward tx
  | receive => exact (List.append_nil queued).symm ▸ hserves.receive
  | acquire => exact (List.append_nil queued).symm ▸ hserves.acquire
  | resume index =>
    refine (List.append_nil queued).symm ▸ ?_
    show Serves start queued (loop.resume index)
    rcases resume_cases loop index with heq | ⟨task, endpoint, htask, -, -, heq⟩ |
      ⟨task, htask, -, -, heq⟩
    · rwa [heq]
    · rw [heq]
      exact hserves.setTask task.post htask rfl rfl _ _
    · rw [heq]
      exact hserves.setTask task.finish htask rfl rfl _ _
  | reply index outcome =>
    refine (List.append_nil queued).symm ▸ ?_
    show Serves start queued (loop.reply index outcome)
    rcases reply_cases loop index outcome with heq | ⟨task, htask, -, heq⟩
    · rwa [heq]
    · rw [heq]
      exact hserves.setTask task.goOn htask rfl rfl _ _

end Serves

/-! ### The permits -/

/-- Every permit is available or held by a task. -/
def Bounded (permits : ℕ) (loop : ForwardingLoop) : Prop :=
  loop.availablePermits + loop.unfinished = permits

section Bounded

variable {permits : ℕ} {loop : ForwardingLoop}

theorem Bounded.receive (hbounded : Bounded permits loop) : Bounded permits loop.receive := by
  rcases receive_cases loop with heq | ⟨tx, queue, -, -, ⟨-, heq⟩ | ⟨-, heq⟩⟩ <;> rw [heq] <;>
    exact hbounded

theorem Bounded.acquire (hbounded : Bounded permits loop) : Bounded permits loop.acquire := by
  rcases acquire_cases loop with heq | ⟨tx, -, hpermits, heq⟩
  · rwa [heq]
  · unfold Bounded unfinished at hbounded
    have hspawned : (ForwardingTask.mk tx (loop.idCounter + 1) 0 .running).Unfinished := by
      show TaskPhase.running ≠ .finished
      decide
    rw [heq, Bounded, unfinished, List.countP_append, List.countP_singleton,
      if_pos (decide_eq_true hspawned)]
    dsimp only
    omega

/-- The task that moves held a permit, and still does unless it has dropped it. -/
theorem unfinished_set {index : ℕ} {task : ForwardingTask} (htask : loop.tasks[index]? = some task)
    (hunfinished : task.Unfinished) (moved : ForwardingTask) :
    (loop.tasks.set index moved).countP (fun task ↦ task.Unfinished) + 1 =
      loop.unfinished + if moved.Unfinished then 1 else 0 := by
  have hcount := countP_set_add htask (fun task ↦ task.Unfinished) moved
  rw [unfinished]
  simpa only [decide_eq_true_eq, hunfinished, if_true] using hcount

theorem Bounded.resume [Hex] (hbounded : Bounded permits loop) (index : ℕ) :
    Bounded permits (loop.resume index) := by
  unfold Bounded at hbounded
  rcases resume_cases loop index with heq | ⟨task, endpoint, htask, hphase, -, heq⟩ |
    ⟨task, htask, hphase, -, heq⟩
  · rwa [heq]
  · have hunfinished := ForwardingTask.unfinished_of_phase hphase (by decide)
    have hcount := unfinished_set htask hunfinished task.post
    rw [if_pos task.unfinished_post] at hcount
    rw [heq, Bounded, unfinished]
    dsimp only
    omega
  · have hunfinished := ForwardingTask.unfinished_of_phase hphase (by decide)
    have hcount := unfinished_set htask hunfinished task.finish
    rw [if_neg task.not_unfinished_finish] at hcount
    rw [heq, Bounded, unfinished]
    dsimp only
    omega

theorem Bounded.reply (hbounded : Bounded permits loop) (index : ℕ) (outcome : PostOutcome) :
    Bounded permits (loop.reply index outcome) := by
  unfold Bounded at hbounded
  rcases reply_cases loop index outcome with heq | ⟨task, htask, hphase, heq⟩
  · rwa [heq]
  · have hunfinished := ForwardingTask.unfinished_of_phase hphase (by decide)
    have hcount := unfinished_set htask hunfinished task.goOn
    rw [if_pos task.unfinished_goOn] at hcount
    rw [heq, Bounded, unfinished]
    dsimp only
    omega

theorem Bounded.step [Hex] (hbounded : Bounded permits loop) (event : ForwardingEvent) :
    Bounded permits (loop.step event) := by
  cases event with
  | forward tx => exact hbounded
  | receive => exact hbounded.receive
  | acquire => exact hbounded.acquire
  | resume index => exact hbounded.resume index
  | reply index outcome => exact hbounded.reply index outcome

end Bounded

/-! ### The posts -/

/-- What a task has posted: its request, to the first endpoints in order. -/
def postsOf [Hex] (endpoints : List String) (index : ℕ) (task : ForwardingTask) : List Post :=
  (endpoints.take task.posted).zipIdx.map fun (endpoint, position) ↦
    { task := index, position, endpoint, request := requestOf task.tx task.id }

/-- Every post is one of a task, and a finished task has posted to every endpoint. -/
structure Posts [Hex] (loop : ForwardingLoop) : Prop where
  sent : ∀ index, loop.posts.filter (fun post ↦ post.task = index) =
    (loop.tasks[index]?.map (postsOf loop.endpoints index)).getD []
  all_posted : ∀ task ∈ loop.tasks, task.phase = .finished → loop.endpoints.length ≤ task.posted

/-- One more post of a task. -/
theorem postsOf_post [Hex] {endpoints : List String} {task : ForwardingTask} {endpoint : String}
    (hendpoint : endpoints[task.posted]? = some endpoint) (index : ℕ) :
    postsOf endpoints index task.post = postsOf endpoints index task ++
      [{ task := index
         position := task.posted
         endpoint
         request := requestOf task.tx task.id }] := by
  have hposted : (endpoints.take task.posted).length = task.posted :=
    List.length_take_of_le (Nat.le_of_lt (List.getElem?_eq_some_iff.mp hendpoint).1)
  unfold postsOf
  show List.map _ (endpoints.take (task.posted + 1)).zipIdx = _
  rw [List.take_add_one, hendpoint, Option.toList_some, List.zipIdx_append, List.map_append,
    hposted, Nat.zero_add]
  rfl

section Posts

variable [Hex] {loop : ForwardingLoop}

/-- A task that moves without a post: the posts are still those of the tasks. -/
theorem Posts.setTask (hposts : Posts loop) {index : ℕ} {task : ForwardingTask}
    (moved : ForwardingTask) (htask : loop.tasks[index]? = some task)
    (hmoved : postsOf loop.endpoints index moved = postsOf loop.endpoints index task)
    (hall : moved.phase = .finished → loop.endpoints.length ≤ moved.posted)
    (availablePermits : ℕ) :
    Posts { loop with tasks := loop.tasks.set index moved, availablePermits } where
  sent := by
    intro other
    dsimp only
    rw [hposts.sent other]
    by_cases hother : index = other
    · subst hother
      rw [List.getElem?_set_self (List.getElem?_eq_some_iff.mp htask).1, htask, Option.map_some,
        Option.map_some, hmoved]
    · rw [List.getElem?_set_ne hother]
  all_posted := by
    intro other hother hfinished
    rcases List.mem_or_eq_of_mem_set hother with hold | rfl
    · exact hposts.all_posted other hold hfinished
    · exact hall hfinished

/-- A running task posts to its next endpoint. -/
theorem Posts.post (hposts : Posts loop) {index : ℕ} {task : ForwardingTask} {endpoint : String}
    (htask : loop.tasks[index]? = some task)
    (hendpoint : loop.endpoints[task.posted]? = some endpoint) :
    Posts { loop with
      tasks := loop.tasks.set index task.post
      posts := loop.posts ++
        [{ task := index
           position := task.posted
           endpoint
           request := requestOf task.tx task.id }] } where
  sent := by
    intro other
    dsimp only
    rw [List.filter_append, hposts.sent other]
    by_cases hother : index = other
    · subst hother
      rw [List.getElem?_set_self (List.getElem?_eq_some_iff.mp htask).1, htask, Option.map_some,
        Option.map_some, Option.getD_some, Option.getD_some, postsOf_post hendpoint,
        List.filter_cons_of_pos (by simp), List.filter_nil]
    · rw [List.getElem?_set_ne hother, List.filter_cons_of_neg (by simpa using hother),
        List.filter_nil, List.append_nil]
  all_posted := by
    intro other hother hfinished
    rcases List.mem_or_eq_of_mem_set hother with hold | rfl
    · exact hposts.all_posted other hold hfinished
    · cases hfinished

theorem Posts.acquire (hposts : Posts loop) : Posts loop.acquire := by
  rcases acquire_cases loop with heq | ⟨tx, -, -, heq⟩
  · rwa [heq]
  · rw [heq]
    refine ⟨fun index ↦ ?_, fun task htask hfinished ↦ ?_⟩
    · dsimp only
      rw [hposts.sent index]
      rcases Nat.lt_trichotomy index loop.tasks.length with hlt | rfl | hgt
      · rw [List.getElem?_append_left hlt]
      · rw [List.getElem?_eq_none (Nat.le_refl _), List.getElem?_concat_length]
        rfl
      · rw [List.getElem?_eq_none (Nat.le_of_lt hgt), List.getElem?_eq_none]
        rw [List.length_append, List.length_singleton]
        exact hgt
    · rcases List.mem_append.mp htask with hold | hnew
      · exact hposts.all_posted task hold hfinished
      · rw [List.mem_singleton.mp hnew] at hfinished
        cases hfinished

theorem Posts.step (hposts : Posts loop) (event : ForwardingEvent) : Posts (loop.step event) := by
  cases event with
  | forward tx => exact ⟨hposts.sent, hposts.all_posted⟩
  | receive =>
    show Posts loop.receive
    rcases receive_cases loop with heq | ⟨tx, queue, -, -, ⟨-, heq⟩ | ⟨-, heq⟩⟩ <;> rw [heq] <;>
      exact ⟨hposts.sent, hposts.all_posted⟩
  | acquire => exact hposts.acquire
  | resume index =>
    show Posts (loop.resume index)
    rcases resume_cases loop index with heq | ⟨task, endpoint, htask, -, hendpoint, heq⟩ |
      ⟨task, htask, -, hendpoint, heq⟩
    · rwa [heq]
    · rw [heq]
      exact hposts.post htask hendpoint
    · rw [heq]
      exact hposts.setTask task.finish htask rfl
        (fun _ ↦ List.getElem?_eq_none_iff.mp hendpoint) _
  | reply index outcome =>
    show Posts (loop.reply index outcome)
    rcases reply_cases loop index outcome with heq | ⟨task, htask, -, heq⟩
    · rwa [heq]
    · rw [heq]
      exact hposts.setTask task.goOn htask rfl (fun hfinished ↦ by cases hfinished) _

/-- The endpoints that a task has posted to. -/
theorem Posts.endpoints_of (hposts : Posts loop) {index : ℕ} {task : ForwardingTask}
    (htask : loop.tasks[index]? = some task) :
    (loop.posts.filter fun post ↦ post.task = index).map (·.endpoint) =
      loop.endpoints.take task.posted := by
  rw [hposts.sent index, htask, Option.map_some, Option.getD_some, postsOf, List.map_map]
  exact List.zipIdx_map_fst 0 _

/-- A post is made by a task, to the endpoint at its position, with the request of the task. -/
theorem Posts.of_mem (hposts : Posts loop) {post : Post} (hpost : post ∈ loop.posts) :
    ∃ task, loop.tasks[post.task]? = some task ∧
      loop.endpoints[post.position]? = some post.endpoint ∧
      post.request = requestOf task.tx task.id := by
  have hmem : post ∈ loop.posts.filter fun other ↦ other.task = post.task :=
    List.mem_filter.mpr ⟨hpost, decide_eq_true rfl⟩
  rw [hposts.sent post.task] at hmem
  cases htask : loop.tasks[post.task]? with
  | none =>
    rw [htask] at hmem
    exact absurd hmem List.not_mem_nil
  | some task =>
    rw [htask, Option.map_some, Option.getD_some, postsOf] at hmem
    obtain ⟨⟨endpoint, position⟩, hposted, heq⟩ := List.mem_map.mp hmem
    have hendpoint := List.mk_mem_zipIdx_iff_getElem?.mp hposted
    rw [List.getElem?_take] at hendpoint
    split_ifs at hendpoint
    rw [← heq]
    exact ⟨task, rfl, hendpoint, rfl⟩

/-- No task posts twice to an endpoint. -/
theorem Posts.nodup (hposts : Posts loop) :
    (loop.posts.map fun post ↦ (post.task, post.position)).Nodup := by
  refine List.nodup_iff_count_le_one.mpr fun ⟨index, position⟩ ↦ ?_
  have hsplit : (loop.posts.map fun post ↦ (post.task, post.position)).count (index, position) =
      ((loop.posts.filter fun post ↦ post.task = index).map (·.position)).count position := by
    rw [List.count_eq_countP, List.count_eq_countP, List.countP_map, List.countP_map,
      List.countP_filter]
    refine List.countP_congr fun post _ ↦ ?_
    simp [Prod.ext_iff, and_comm]
  rw [hsplit, hposts.sent index]
  refine List.nodup_iff_count_le_one.mp ?_ position
  cases hindex : loop.tasks[index]? with
  | none => exact List.nodup_nil
  | some task =>
    rw [Option.map_some, Option.getD_some, postsOf, List.map_map]
    show (List.map Prod.snd (loop.endpoints.take task.posted).zipIdx).Nodup
    rw [List.zipIdx_map_snd]
    exact List.nodup_range'

end Posts

/-! ### Every run -/

/-- The three invariants. -/
structure Delivering [Hex] (config : BackendConfig) (start : ForwardingLoop)
    (queued : List ForwardableTx) (loop : ForwardingLoop) : Prop where
  serves : Serves start queued loop
  bounded : Bounded config.maxConcurrent loop
  posts : Posts loop

theorem dedup_of_new {config : BackendConfig} {wsBroadcaster : Option WsBroadcaster}
    {start : ForwardingLoop} (hnew : TxForwarder.new config wsBroadcaster = some start) :
    TxDedup.new config.dedup = some start.dedup := by
  unfold TxForwarder.new at hnew
  split_ifs at hnew
  obtain ⟨dedup, hdedup, rfl⟩ := Option.map_eq_some_iff.mp hnew
  exact hdedup

theorem delivering_new [Hex] {config : BackendConfig} {wsBroadcaster : Option WsBroadcaster}
    {start : ForwardingLoop} (hnew : TxForwarder.new config wsBroadcaster = some start) :
    start.endpoints = config.endpoints ∧ start.wsBroadcaster = wsBroadcaster ∧
      Delivering config start [] start := by
  unfold TxForwarder.new at hnew
  split_ifs at hnew with haccepted
  obtain ⟨dedup, -, rfl⟩ := Option.map_eq_some_iff.mp hnew
  refine ⟨rfl, rfl, ⟨rfl, rfl, rfl, ?_, ?_, rfl, rfl⟩, rfl, fun index ↦ rfl, ?_⟩
  · exact (announcing_nil wsBroadcaster).symm
  · simp [TxDedup.accepted]
  · exact List.forall_mem_nil _

theorem delivering_run [Hex] {config : BackendConfig} {wsBroadcaster : Option WsBroadcaster}
    {start : ForwardingLoop} (hnew : TxForwarder.new config wsBroadcaster = some start)
    (events : List ForwardingEvent) :
    Delivering config start (queuedIn events) (run step start events) := by
  refine run_history (fun before loop ↦ Delivering config start (queuedIn before) loop)
    (delivering_new hnew).2.2 ?_ events
  intro before loop event hloop
  rw [queuedIn_concat]
  exact ⟨hloop.serves.step event, hloop.bounded.step event, hloop.posts.step event⟩

/-- What the forwarding loop delivers. The broadcasts are what the deduplicator accepted, once each
and in the order of the queue, and each accepted transaction gets one task when there are endpoints.
No task posts twice to an endpoint; its posts carry its transaction and go to the endpoints in
order; once finished, it has posted to all of them. Two tasks have the same id exactly when a
multiple of `2 ^ 64` separates them. No more tasks are unfinished than configured. -/
structure DeliversOnce [Hex] (config : BackendConfig) (wsBroadcaster : Option WsBroadcaster)
    (dedup : TxDedup) (queued : List ForwardableTx) (loop : ForwardingLoop) : Prop where
  queued_eq : queued = loop.received ++ loop.queue
  broadcasts : loop.wsBroadcaster = announcing wsBroadcaster (dedup.accepted loop.received)
  spawned : loop.tasks.map (·.tx) ++ loop.acquiring.toList =
    if config.endpoints.isEmpty then [] else dedup.accepted loop.received
  posts_once : (loop.posts.map fun post ↦ (post.task, post.position)).Nodup
  posts_of_tasks : ∀ post ∈ loop.posts, ∃ task, loop.tasks[post.task]? = some task ∧
    config.endpoints[post.position]? = some post.endpoint ∧
    post.request = requestOf task.tx task.id
  posts_in_order : ∀ index task, loop.tasks[index]? = some task →
    (loop.posts.filter fun post ↦ post.task = index).map (·.endpoint) =
      config.endpoints.take task.posted
  finished : ∀ index task, loop.tasks[index]? = some task → task.phase = .finished →
    (loop.posts.filter fun post ↦ post.task = index).map (·.endpoint) = config.endpoints
  same_id_iff : ∀ first later firstTask laterTask, loop.tasks[first]? = some firstTask →
    loop.tasks[later]? = some laterTask →
    (firstTask.id = laterTask.id ↔ first % 2 ^ 64 = later % 2 ^ 64)
  concurrent : loop.unfinished ≤ config.maxConcurrent

theorem Serves.id_of_task {start loop : ForwardingLoop} {queued : List ForwardableTx}
    (hserves : Serves start queued loop) {index : ℕ} {task : ForwardingTask}
    (htask : loop.tasks[index]? = some task) : task.id = .ofNat (index + 1) := by
  have hindex := (List.getElem?_eq_some_iff.mp htask).1
  have hid : (loop.tasks.map (·.id))[index]? = some task.id := by
    rw [List.getElem?_map, htask, Option.map_some]
  rw [hserves.ids, List.getElem?_map, List.getElem?_range hindex, Option.map_some] at hid
  exact (Option.some.inj hid).symm

theorem Delivering.deliversOnce [Hex] {config : BackendConfig}
    {wsBroadcaster : Option WsBroadcaster} {start loop : ForwardingLoop}
    (hnew : TxForwarder.new config wsBroadcaster = some start) {queued : List ForwardableTx}
    (hloop : Delivering config start queued loop) :
    DeliversOnce config wsBroadcaster start.dedup queued loop := by
  obtain ⟨hendpoints, hbroadcaster, -⟩ := delivering_new hnew
  have hsame : loop.endpoints = config.endpoints := hloop.serves.endpoints.trans hendpoints
  exact {
    queued_eq := hloop.serves.queued_eq
    broadcasts := hbroadcaster ▸ hloop.serves.wsBroadcaster
    spawned := hendpoints ▸ hloop.serves.handed
    posts_once := hloop.posts.nodup
    posts_of_tasks := fun post hpost ↦ hsame ▸ hloop.posts.of_mem hpost
    posts_in_order := fun index task htask ↦ hsame ▸ hloop.posts.endpoints_of htask
    finished := fun index task htask hfinished ↦ by
      rw [hloop.posts.endpoints_of htask, ← hsame]
      exact List.take_of_length_le
        (hloop.posts.all_posted task (List.mem_of_getElem? htask) hfinished)
    same_id_iff := fun first later firstTask laterTask hfirst hlater ↦ by
      rw [hloop.serves.id_of_task hfirst, hloop.serves.id_of_task hlater, ← UInt64.toNat_inj,
        UInt64.toNat_ofNat', UInt64.toNat_ofNat']
      omega
    concurrent := by
      have hbounded := hloop.bounded
      unfold Bounded at hbounded
      omega }

/-- The forwarding loop delivers every accepted transaction exactly once everywhere. Assumes: a
configuration that `TxForwarder.new` accepts. For every run: all queued transactions, all outcomes
of the posts, and every interleaving of the loop and its tasks. -/
theorem forwarding_delivers [Hex] (config : BackendConfig) (wsBroadcaster : Option WsBroadcaster)
    (start : ForwardingLoop) (hnew : TxForwarder.new config wsBroadcaster = some start)
    (events : List ForwardingEvent) :
    DeliversOnce config wsBroadcaster start.dedup (queuedIn events) (run step start events) :=
  (delivering_run hnew events).deliversOnce hnew

/-- One transaction, queued twice and broadcast, and two endpoints of which the first cannot be
reached. -/
theorem forwarding_delivers_of_two :
    let _ : Hex := .lower
    let config : BackendConfig := ⟨["http://a:8545", "http://b:8545"], 1, 4, ⟨2⟩⟩
    let events : List ForwardingEvent :=
      [.forward ⟨.repeatByte 1, [2]⟩, .forward ⟨.repeatByte 1, [2]⟩, .receive, .acquire, .receive,
        .resume 0, .reply 0 .sendError, .resume 0]
    let wsBroadcaster : Option WsBroadcaster := some { sent := [] }
    ∃ start, TxForwarder.new config wsBroadcaster = some start ∧
      DeliversOnce config wsBroadcaster start.dedup (queuedIn events) (run step start events) := by
  intro hex config events wsBroadcaster
  exact ⟨_, rfl, forwarding_delivers config wsBroadcaster _ rfl events⟩

/-! ### Ids of long runs -/

/-- Each transaction is served before the next one is queued; the tasks start at an index. -/
def oneByOne : ℕ → List ForwardableTx → List ForwardingEvent
  | _, [] => []
  | index, tx :: txs =>
    [.forward tx, .receive, .acquire, .resume index, .reply index .sendError, .resume index] ++
      oneByOne (index + 1) txs

/-- The loop has one endpoint, a permit, and nothing to do. -/
structure Idle (loop : ForwardingLoop) : Prop where
  one_endpoint : loop.endpoints.length = 1
  queue : loop.queue = []
  acquiring : loop.acquiring = none
  permit : 0 < loop.availablePermits

theorem Idle.serve [Hex] {loop : ForwardingLoop} (hidle : Idle loop) {tx : ForwardableTx}
    (hnew : (loop.dedup.checkAndInsert tx.hash).1 = true) :
    let served := run step loop (oneByOne loop.tasks.length [tx])
    Idle served ∧ served.dedup = (loop.dedup.checkAndInsert tx.hash).2 ∧
      served.tasks.map (·.tx) = loop.tasks.map (·.tx) ++ [tx] := by
  obtain ⟨hone, hqueue, hacquiring, hpermit⟩ := hidle
  obtain ⟨endpoint, hendpoints⟩ := List.length_eq_one_iff.mp hone
  intro served
  have hserved : served = { loop with
      dedup := (loop.dedup.checkAndInsert tx.hash).2
      wsBroadcaster := loop.wsBroadcaster.map (·.broadcast (notificationOf tx))
      received := loop.received ++ [tx]
      availablePermits := loop.availablePermits - 1 + 1
      idCounter := loop.idCounter + 1
      tasks := loop.tasks ++ [⟨tx, loop.idCounter + 1, 1, .finished⟩]
      posts := loop.posts ++
        [⟨loop.tasks.length, 0, endpoint, requestOf tx (loop.idCounter + 1)⟩] } := by
    simp [served, oneByOne, step, receive, acquire, resume, reply, hqueue, hacquiring, hpermit,
      hendpoints, hnew, Nat.ne_of_gt, ForwardingTask.post, ForwardingTask.finish,
      ForwardingTask.goOn]
  rw [hserved]
  refine ⟨⟨hone, hqueue, hacquiring, Nat.succ_pos _⟩, rfl, ?_⟩
  rw [List.map_append, List.map_singleton]

/-- Every accepted transaction gets its task. -/
theorem Idle.tasks_oneByOne [Hex] (txs : List ForwardableTx) {loop : ForwardingLoop}
    (hidle : Idle loop) (hall : loop.dedup.accepted txs = txs) :
    (run step loop (oneByOne loop.tasks.length txs)).tasks.map (·.tx) =
      loop.tasks.map (·.tx) ++ txs := by
  induction txs generalizing loop with
  | nil => exact (List.append_nil _).symm
  | cons tx txs ih =>
    rw [TxDedup.accepted_cons] at hall
    split_ifs at hall with hnew
    · obtain ⟨hserved, hdedup, htasks⟩ := hidle.serve hnew
      have hlength := congrArg List.length htasks
      rw [List.length_append, List.length_map, List.length_map, List.length_singleton] at hlength
      have hrest := ih hserved (by rw [hdedup]; exact (List.cons.inj hall).2)
      rw [hlength, htasks, List.append_assoc, List.singleton_append, ← run_append] at hrest
      exact hrest
    · have hshorter :=
        ((loop.dedup.checkAndInsert tx.hash).2.accepted_sublist txs).length_le
      rw [hall, List.length_cons] at hshorter
      omega

theorem Idle.exists_task [Hex] {loop : ForwardingLoop} (hidle : Idle loop)
    {txs : List ForwardableTx} (hall : loop.dedup.accepted txs = txs) (hnone : loop.tasks = [])
    {index : ℕ} {tx : ForwardableTx} (htx : txs[index]? = some tx) :
    ∃ task, (run step loop (oneByOne 0 txs)).tasks[index]? = some task ∧ task.tx = tx := by
  have htasks := hidle.tasks_oneByOne txs hall
  rw [hnone, List.length_nil, List.map_nil, List.nil_append] at htasks
  rw [← htasks, List.getElem?_map] at htx
  exact Option.map_eq_some_iff.mp htx

/-- A sequence of transactions with three contents in turn. -/
def numbered (number : ℕ) : ForwardableTx where
  hash := .repeatByte (.ofNat (number % 3))
  rawTx := [.ofNat (number % 3)]

theorem hash_numbered_ne (number : ℕ) : (numbered number).hash ≠ (numbered (number + 1)).hash := by
  intro heq
  have hbytes := congrArg B256.bytes heq
  have hbyte := List.replicate_right_injective (by decide) hbytes
  rw [← UInt8.toNat_inj, UInt8.toNat_ofNat', UInt8.toNat_ofNat'] at hbyte
  omega

/-- A deduplicator that remembers one hash accepts a transaction that differs from the last one. -/
theorem accepted_of_isChain (txs : List ForwardableTx) {dedup : TxDedup}
    (hcapacity : dedup.cache.capacity = 1)
    (hfirst : ∀ tx ∈ txs.head?, tx.hash ∉ dedup.cache.keys)
    (hchain : txs.IsChain fun earlier later ↦ earlier.hash ≠ later.hash) :
    dedup.accepted txs = txs := by
  induction txs generalizing dedup with
  | nil => rfl
  | cons tx txs ih =>
    have hnew : (dedup.checkAndInsert tx.hash).1 = true := by
      rw [← Bool.not_eq_false]
      exact mt TxDedup.isNew_eq_false_iff.mp (hfirst tx rfl)
    rw [TxDedup.accepted_cons, if_pos hnew]
    congr 1
    obtain ⟨hhead, htail⟩ := List.isChain_cons.mp hchain
    refine ih ((TxDedup.capacity_isNew _ _).trans hcapacity) ?_ htail
    intro next hnext
    have hkeys : (TxDedup.isNew dedup.cache tx.hash).2.keys = [tx.hash] := by
      rw [TxDedup.keys_isNew, hcapacity, Recency.touch, List.take_succ_cons, List.take_zero]
    show next.hash ∉ (TxDedup.isNew dedup.cache tx.hash).2.keys
    rw [hkeys, List.mem_singleton]
    exact (hhead next hnext).symm

/-- A run in which the first task and the task at a multiple of `2 ^ 64` are both spawned. -/
theorem ids_repeat_after [Hex] {count : ℕ} (hmultiple : count % 2 ^ 64 = 0)
    (hthree : count % 3 = 1) :
    ∃ start, TxForwarder.new ⟨["http://a:8545"], 1, 1, ⟨1⟩⟩ none = some start ∧
      ∃ first later,
        let tasks := (run step start (oneByOne 0 ((List.range (count + 1)).map numbered))).tasks
        tasks[0]? = some first ∧ tasks[count]? = some later ∧ first.tx ≠ later.tx ∧
          first.id = later.id := by
  let start : ForwardingLoop :=
    { endpoints := ["http://a:8545"], dedup := ⟨.new 1 Nat.one_pos, ⟨0, 0, 0⟩⟩,
      wsBroadcaster := none, queue := [], received := [], acquiring := none, availablePermits := 1,
      idCounter := 0, tasks := [], posts := [] }
  have hnew : TxForwarder.new ⟨["http://a:8545"], 1, 1, ⟨1⟩⟩ none = some start := rfl
  have hidle : Idle start := ⟨rfl, rfl, rfl, Nat.one_pos⟩
  have haccepted : start.dedup.accepted ((List.range (count + 1)).map numbered) =
      (List.range (count + 1)).map numbered := by
    refine accepted_of_isChain _ rfl (fun _ _ ↦ List.not_mem_nil) ((List.isChain_map _).mpr ?_)
    exact (List.isChain_range_succ _ _).mpr fun number _ ↦ hash_numbered_ne number
  have hdelivers :=
    (delivering_run hnew (oneByOne 0 ((List.range (count + 1)).map numbered))).deliversOnce hnew
  have htask : ∀ index < count + 1,
      ∃ task, (run step start (oneByOne 0 ((List.range (count + 1)).map numbered))).tasks[index]? =
        some task ∧ task.tx = numbered index := by
    intro index hindex
    refine hidle.exists_task haccepted rfl ?_
    rw [List.getElem?_map, List.getElem?_range hindex, Option.map_some]
  obtain ⟨first, hfirst, hfirstTx⟩ := htask 0 (Nat.succ_pos count)
  obtain ⟨later, hlater, hlaterTx⟩ := htask count (Nat.lt_succ_self count)
  refine ⟨start, hnew, first, later, hfirst, hlater, ?_, ?_⟩
  · intro hsame
    have hraw : (numbered 0).rawTx = (numbered count).rawTx := by
      rw [← hfirstTx, ← hlaterTx, hsame]
    rw [numbered, numbered, hthree] at hraw
    exact absurd hraw (by decide)
  · refine (hdelivers.same_id_iff 0 count first later hfirst hlater).mpr ?_
    rw [hmultiple, Nat.zero_mod]

/-- After `2 ^ 64 + 1` accepted transactions the first and the last of them, which differ, have been
posted with the same id. -/
theorem ids_repeat :
    let _ : Hex := .lower
    ∃ start, TxForwarder.new ⟨["http://a:8545"], 1, 1, ⟨1⟩⟩ none = some start ∧
      ∃ first later,
        let tasks := (run step start (oneByOne 0 ((List.range (2 ^ 64 + 1)).map numbered))).tasks
        tasks[0]? = some first ∧ tasks[2 ^ 64]? = some later ∧ first.tx ≠ later.tx ∧
          first.id = later.id :=
  @ids_repeat_after Hex.lower (2 ^ 64) (Nat.mod_self _) (by decide)

end ForwardingLoop

end SentryNode
