import SentryNode.Forwarder.Backpressure
import SentryNode.Library.Progress

/-!
# The forwarding loop comes to rest

Once no transaction is queued any more, the loop, its tasks and the replies of the endpoints are all
that moves. `work` counts the moves that are left: for each queued transaction one to receive it and
one to acquire a permit, two for each endpoint, and one to drop the permit. So a run makes at most
that many moves for each of its transactions (`forwarding_moves_le`), and a weakly fair schedule
comes to rest.

What is at rest is settled (`forwarding_settles`). With a permit to acquire, every transaction is
received, announced and posted to every endpoint, and every permit is back. A semaphore without any
permit is accepted as well: then the loop takes the first transaction and no other.
-/

set_option autoImplicit false
set_option relaxedAutoImplicit false

namespace SentryNode

open Library

/-- A move of the loop, of a task or of an endpoint, as against a new transaction. -/
def ForwardingEvent.isMove : ForwardingEvent → Bool
  | .forward _ => false
  | _ => true

/-! ### The work left -/

/-- The moves that a task makes before it is finished: to each endpoint that is left a post and its
reply, and one to drop the permit. -/
def ForwardingTask.work (endpoints : ℕ) (task : ForwardingTask) : ℕ :=
  match task.phase with
  | .running => 2 * (endpoints - task.posted) + 1
  | .awaiting => 2 * (endpoints - task.posted) + 2
  | .finished => 0

namespace ForwardingLoop

/-- The moves left. -/
def work (loop : ForwardingLoop) : ℕ :=
  (2 * loop.endpoints.length + 3) * loop.queue.length +
    (2 * loop.endpoints.length + 2) * loop.acquiring.toList.length +
    (loop.tasks.map (·.work loop.endpoints.length)).sum

theorem work_forward [Hex] (loop : ForwardingLoop) (tx : ForwardableTx) :
    (loop.step (.forward tx)).work = loop.work + (2 * loop.endpoints.length + 3) := by
  simp only [work, step, List.length_append, List.length_singleton, Nat.mul_add, Nat.mul_one]
  omega

theorem work_receive (loop : ForwardingLoop) :
    loop.receive = loop ∨ loop.receive.work < loop.work := by
  rcases receive_cases loop with heq | ⟨tx, queue, hnone, hqueue, ⟨-, heq⟩ | ⟨-, heq⟩⟩
  · exact Or.inl heq
  · right
    rw [heq]
    simp only [work, hqueue, List.length_cons, Nat.mul_add, Nat.mul_one]
    omega
  · right
    rw [heq]
    by_cases hempty : loop.endpoints.isEmpty <;>
      simp [work, hqueue, hnone, hempty, Nat.mul_add]

theorem work_acquire (loop : ForwardingLoop) :
    loop.acquire = loop ∨ loop.acquire.work < loop.work := by
  rcases acquire_cases loop with heq | ⟨tx, hacquiring, -, heq⟩
  · exact Or.inl heq
  · right
    rw [heq]
    simp only [work, hacquiring, Option.toList_some, Option.toList_none, List.length_singleton,
      List.length_nil, List.map_append, List.map_singleton, List.sum_append, List.sum_singleton]
    simp only [ForwardingTask.work]
    omega

/-- A task that moves has less work left, and the others have what they had. -/
theorem work_setTask {loop : ForwardingLoop} {index : ℕ} {task moved : ForwardingTask}
    (htask : loop.tasks[index]? = some task)
    (hless : moved.work loop.endpoints.length < task.work loop.endpoints.length)
    (availablePermits : ℕ) (posts : List Post) :
    work { loop with tasks := loop.tasks.set index moved, availablePermits, posts } <
      loop.work := by
  have hsum := sum_map_set_add htask (·.work loop.endpoints.length) moved
  simp only [work] at hsum ⊢
  omega

theorem work_resume [Hex] (loop : ForwardingLoop) (index : ℕ) :
    loop.resume index = loop ∨ (loop.resume index).work < loop.work := by
  rcases resume_cases loop index with heq | ⟨task, endpoint, htask, hphase, hendpoint, heq⟩ |
    ⟨task, htask, hphase, -, heq⟩
  · exact Or.inl heq
  · right
    have hleft : task.posted < loop.endpoints.length :=
      (List.getElem?_eq_some_iff.mp hendpoint).1
    rw [heq]
    refine work_setTask htask ?_ _ _
    simp only [ForwardingTask.work, ForwardingTask.post, hphase]
    omega
  · right
    rw [heq]
    refine work_setTask htask ?_ _ _
    simp only [ForwardingTask.work, ForwardingTask.finish, hphase]
    omega

theorem work_reply (loop : ForwardingLoop) (index : ℕ) (outcome : PostOutcome) :
    loop.reply index outcome = loop ∨ (loop.reply index outcome).work < loop.work := by
  rcases reply_cases loop index outcome with heq | ⟨task, htask, hphase, heq⟩
  · exact Or.inl heq
  · right
    rw [heq]
    refine work_setTask htask ?_ _ _
    simp only [ForwardingTask.work, ForwardingTask.goOn, hphase]
    omega

theorem endpoints_step [Hex] (loop : ForwardingLoop) (event : ForwardingEvent) :
    (loop.step event).endpoints = loop.endpoints := by
  cases event with
  | forward tx => rfl
  | receive =>
    show loop.receive.endpoints = loop.endpoints
    rcases receive_cases loop with heq | ⟨tx, queue, -, -, ⟨-, heq⟩ | ⟨-, heq⟩⟩ <;> rw [heq]
  | acquire =>
    show loop.acquire.endpoints = loop.endpoints
    rcases acquire_cases loop with heq | ⟨tx, -, -, heq⟩ <;> rw [heq]
  | resume index =>
    show (loop.resume index).endpoints = loop.endpoints
    rcases resume_cases loop index with heq | ⟨task, endpoint, -, -, -, heq⟩ |
      ⟨task, -, -, -, heq⟩ <;> rw [heq]
  | reply index outcome =>
    show (loop.reply index outcome).endpoints = loop.endpoints
    rcases reply_cases loop index outcome with heq | ⟨task, -, -, heq⟩ <;> rw [heq]

/-- A move takes at most the first transaction of the queue, and announces no other. -/
theorem move_cases [Hex] (loop : ForwardingLoop) {event : ForwardingEvent} (hmove : event.isMove) :
    (loop.step event).queue = loop.queue ∧ (loop.step event).wsBroadcaster = loop.wsBroadcaster ∨
      ∃ tx queue, loop.queue = tx :: queue ∧ (loop.step event).queue = queue ∧
        ((loop.step event).wsBroadcaster = loop.wsBroadcaster ∨
          (loop.step event).wsBroadcaster =
            loop.wsBroadcaster.map (·.broadcast (notificationOf tx))) := by
  cases event with
  | forward tx => cases hmove
  | receive =>
    simp only [step]
    rcases receive_cases loop with heq | ⟨tx, queue, -, hqueue, ⟨-, heq⟩ | ⟨-, heq⟩⟩
    · exact Or.inl (by rw [heq]; exact ⟨rfl, rfl⟩)
    · exact Or.inr ⟨tx, queue, hqueue, by rw [heq], Or.inl (by rw [heq])⟩
    · exact Or.inr ⟨tx, queue, hqueue, by rw [heq], Or.inr (by rw [heq])⟩
  | acquire =>
    left
    simp only [step]
    rcases acquire_cases loop with heq | ⟨tx, -, -, heq⟩ <;> rw [heq] <;> exact ⟨rfl, rfl⟩
  | resume index =>
    left
    simp only [step]
    rcases resume_cases loop index with heq | ⟨task, endpoint, -, -, -, heq⟩ |
      ⟨task, -, -, -, heq⟩ <;> rw [heq] <;> exact ⟨rfl, rfl⟩
  | reply index outcome =>
    left
    simp only [step]
    rcases reply_cases loop index outcome with heq | ⟨task, -, -, heq⟩ <;> rw [heq] <;>
      exact ⟨rfl, rfl⟩

theorem works [Hex] : Works ForwardingEvent.isMove step work := by
  intro loop event hmove
  cases event with
  | forward tx => cases hmove
  | receive => exact loop.work_receive
  | acquire => exact loop.work_acquire
  | resume index => exact loop.work_resume index
  | reply index outcome => exact loop.work_reply index outcome

theorem countP_inputs (events : List ForwardingEvent) :
    events.countP (fun event ↦ !event.isMove) = (queuedIn events).length := by
  induction events with
  | nil => rfl
  | cons event events ih =>
    cases event <;> simp_all [queuedIn, ForwardingEvent.isMove]

theorem queuedIn_append (before after : List ForwardingEvent) :
    queuedIn (before ++ after) = queuedIn before ++ queuedIn after := List.flatMap_append

theorem queuedIn_of_moves {events : List ForwardingEvent}
    (hmoves : ∀ event ∈ events, event.isMove) : queuedIn events = [] := by
  rw [← List.length_eq_zero_iff, ← countP_inputs, List.countP_eq_zero]
  intro event hevent
  simp [hmoves event hevent]

theorem work_new {config : BackendConfig} {wsBroadcaster : Option WsBroadcaster}
    {start : ForwardingLoop} (hnew : TxForwarder.new config wsBroadcaster = some start) :
    start.work = 0 := by
  unfold TxForwarder.new at hnew
  split_ifs at hnew
  obtain ⟨dedup, -, rfl⟩ := Option.map_eq_some_iff.mp hnew
  rfl

/-- A run without idle moves is short. Assumes: every step of it queues a transaction or changes the
state. It has at most two steps for each endpoint and four more for each transaction queued. -/
theorem forwarding_moves_le [Hex] (config : BackendConfig) (wsBroadcaster : Option WsBroadcaster)
    (start : ForwardingLoop) (hnew : TxForwarder.new config wsBroadcaster = some start)
    (events : List ForwardingEvent)
    (hsteps : EachStep (fun loop event ↦ event.isMove → step loop event ≠ loop) step start events) :
    events.length ≤ (2 * config.endpoints.length + 4) * (queuedIn events).length := by
  have hgain : ∀ (loop : ForwardingLoop) (event : ForwardingEvent),
      loop.endpoints = config.endpoints → event.isMove = false →
      (loop.step event).work ≤ loop.work + (2 * config.endpoints.length + 3) := by
    intro loop event hsame hinput
    cases event with
    | forward tx => exact hsame ▸ (loop.work_forward tx).le
    | receive | acquire | resume | reply => cases hinput
  have hbound := works.length_add_work_le (fun loop ↦ loop.endpoints = config.endpoints)
    (fun loop event hsame ↦ (loop.endpoints_step event).trans hsame) hgain
    (delivering_new hnew).1 hsteps
  rw [work_new hnew, countP_inputs, Nat.zero_add] at hbound
  exact Nat.le_trans (Nat.le_add_right _ _) hbound

/-- One transaction and one endpoint: six steps, as many as the bound allows. -/
theorem forwarding_moves_le_of_one :
    let _ : Hex := .lower
    let config : BackendConfig := ⟨["http://a:8545"], 1, 4, ⟨4⟩⟩
    let events : List ForwardingEvent :=
      [.forward ⟨.repeatByte 1, [2]⟩, .receive, .acquire, .resume 0, .reply 0 .success, .resume 0]
    ∃ start, TxForwarder.new config none = some start ∧
      events.length ≤ (2 * config.endpoints.length + 4) * (queuedIn events).length := by
  intro hex config events
  refine ⟨_, rfl, forwarding_moves_le config none _ rfl events ?_⟩
  refine ⟨fun hmove ↦ ?_, fun _ heq ↦ ?_, fun _ heq ↦ ?_, fun _ heq ↦ ?_, fun _ heq ↦ ?_,
    fun _ heq ↦ ?_, trivial⟩
  · cases hmove
  · exact absurd (congrArg (·.received) heq) (by decide)
  · exact absurd (congrArg (·.acquiring) heq) (by decide)
  · exact absurd (congrArg (·.posts) heq) (by decide)
  · exact absurd (congrArg (·.tasks) heq) (by decide)
  · exact absurd (congrArg (·.tasks) heq) (by decide)

/-! ### At rest -/

/-- What is left when nothing moves any more. With a permit, or without an endpoint, everything that
was queued is received, and otherwise only the first transaction. What was received is announced
once; each accepted transaction has a finished task, which has posted to every endpoint, and every
permit is available. Without a permit, or without an endpoint, nothing is posted. -/
structure Settled (config : BackendConfig) (wsBroadcaster : Option WsBroadcaster) (dedup : TxDedup)
    (queued : List ForwardableTx) (loop : ForwardingLoop) : Prop where
  received : loop.received =
    if 0 < config.maxConcurrent ∨ config.endpoints = [] then queued else queued.take 1
  broadcasts : loop.wsBroadcaster = announcing wsBroadcaster (dedup.accepted loop.received)
  tasks : loop.tasks.map (·.tx) =
    if 0 < config.maxConcurrent ∧ config.endpoints ≠ [] then dedup.accepted queued else []
  posted : ∀ index task, loop.tasks[index]? = some task → task.phase = .finished ∧
    (loop.posts.filter fun post ↦ post.task = index).map (·.endpoint) = config.endpoints
  unposted : config.maxConcurrent = 0 ∨ config.endpoints = [] → loop.posts = []
  permits : loop.availablePermits = config.maxConcurrent

section Quiet

variable {loop : ForwardingLoop}

/-- At rest the loop waits for a permit, or has nothing to receive. -/
theorem queue_of_quiet [Hex] (hquiet : Quiet ForwardingEvent.isMove step loop)
    (hnone : loop.acquiring = none) : loop.queue = [] := by
  by_contra hqueue
  obtain ⟨tx, queue, heq⟩ := List.exists_cons_of_ne_nil hqueue
  have hreceived := (receive_next hnone heq).1
  have hsame : loop.receive = loop := hquiet .receive rfl
  rw [hsame] at hreceived
  exact List.cons_ne_nil tx [] (List.self_eq_append_right.mp hreceived)

/-- At rest a transaction waits only where no permit is available. -/
theorem permits_of_quiet [Hex] (hquiet : Quiet ForwardingEvent.isMove step loop)
    {tx : ForwardableTx} (hacquiring : loop.acquiring = some tx) : loop.availablePermits = 0 := by
  by_contra hpermit
  have hsame : loop.acquire = loop := hquiet .acquire rfl
  have hnone : loop.acquire.acquiring = none := by
    simp only [acquire, hacquiring, hpermit, if_false]
  rw [hsame, hacquiring] at hnone
  cases hnone

/-- A task that holds a permit has a move: the next post, the reply it waits for, or its end. -/
theorem exists_move [Hex] {index : ℕ} {task : ForwardingTask}
    (htask : loop.tasks[index]? = some task) (hunfinished : task.Unfinished) :
    ∃ (event : ForwardingEvent) (moved : ForwardingTask),
      event.isMove ∧ (loop.step event).tasks = loop.tasks.set index moved ∧ moved ≠ task := by
  have hchanges : ∀ moved : ForwardingTask, moved.phase ≠ task.phase → moved ≠ task :=
    fun moved hphase heq ↦ hphase (congrArg ForwardingTask.phase heq)
  cases hphase : task.phase with
  | finished => exact absurd hphase hunfinished
  | awaiting =>
    refine ⟨.reply index .success, task.goOn, rfl, ?_, hchanges _ ?_⟩
    · simp only [step, reply, htask, hphase, if_true, ForwardingTask.reply_eq_goOn]
    · simp [ForwardingTask.goOn, hphase]
  | running =>
    cases hendpoint : loop.endpoints[task.posted]? with
    | some endpoint =>
      refine ⟨.resume index, task.post, rfl, ?_, hchanges _ ?_⟩
      · simp only [step, resume, htask, hphase, hendpoint]
      · simp [ForwardingTask.post, hphase]
    | none =>
      refine ⟨.resume index, task.finish, rfl, ?_, hchanges _ ?_⟩
      · simp only [step, resume, htask, hphase, hendpoint]
      · simp [ForwardingTask.finish, hphase]

/-- At rest every task is finished. -/
theorem finished_of_quiet [Hex] (hquiet : Quiet ForwardingEvent.isMove step loop) {index : ℕ}
    {task : ForwardingTask} (htask : loop.tasks[index]? = some task) : task.phase = .finished := by
  by_contra hunfinished
  obtain ⟨event, moved, hmove, htasks, hmoved⟩ := exists_move htask hunfinished
  rw [hquiet event hmove] at htasks
  exact set_ne_self htask hmoved htasks.symm

/-- At rest every permit is available. -/
theorem available_of_quiet [Hex] (hquiet : Quiet ForwardingEvent.isMove step loop) {permits : ℕ}
    (hbounded : Bounded permits loop) : loop.availablePermits = permits := by
  have hunfinished : loop.unfinished = 0 := by
    refine List.countP_eq_zero.mpr fun task htask ↦ ?_
    obtain ⟨index, hindex⟩ := List.mem_iff_getElem?.mp htask
    simp [ForwardingTask.Unfinished, finished_of_quiet hquiet hindex]
  unfold Bounded at hbounded
  omega

end Quiet

/-! ### Without permits -/

/-- Without permits nothing is handed to a task, and at most one transaction is taken. -/
structure Blocked (loop : ForwardingLoop) : Prop where
  endpoints : loop.endpoints ≠ []
  permits : loop.availablePermits = 0
  tasks : loop.tasks = []
  received : loop.received = loop.acquiring.toList

section Blocked

variable {start loop : ForwardingLoop} {queued : List ForwardableTx}

theorem Blocked.receive (hblocked : Blocked loop)
    (hnew : loop.received = [] → ∀ hash, (loop.dedup.checkAndInsert hash).1 = true) :
    Blocked loop.receive := by
  rcases receive_cases loop with heq | ⟨tx, queue, hnone, -, ⟨hdup, heq⟩ | ⟨-, heq⟩⟩
  · rwa [heq]
  · have hreceived := hblocked.received
    rw [hnone, Option.toList_none] at hreceived
    rw [hnew hreceived tx.hash] at hdup
    cases hdup
  · have hreceived := hblocked.received
    rw [hnone, Option.toList_none] at hreceived
    have hendpoints : loop.endpoints.isEmpty = false := by simpa using hblocked.endpoints
    rw [heq]
    exact ⟨hblocked.endpoints, hblocked.permits, hblocked.tasks, by simp [hreceived, hendpoints]⟩

theorem Blocked.step [Hex] (hblocked : Blocked loop)
    (hnew : loop.received = [] → ∀ hash, (loop.dedup.checkAndInsert hash).1 = true)
    (event : ForwardingEvent) : Blocked (loop.step event) := by
  cases event with
  | forward tx => exact ⟨hblocked.endpoints, hblocked.permits, hblocked.tasks, hblocked.received⟩
  | receive => exact hblocked.receive hnew
  | acquire =>
    show Blocked loop.acquire
    rcases acquire_cases loop with heq | ⟨tx, -, hpermit, -⟩
    · rwa [heq]
    · exact absurd hblocked.permits (Nat.ne_of_gt hpermit)
  | resume index =>
    simpa only [ForwardingLoop.step, ForwardingLoop.resume, hblocked.tasks, List.getElem?_nil]
  | reply index outcome =>
    simpa only [ForwardingLoop.step, ForwardingLoop.reply, hblocked.tasks, List.getElem?_nil]

end Blocked

theorem checkAndInsert_new {config : DedupConfig} {dedup : TxDedup}
    (hnew : TxDedup.new config = some dedup) (hash : B256) :
    (dedup.checkAndInsert hash).1 = true := by
  unfold TxDedup.new at hnew
  split_ifs at hnew
  obtain rfl := Option.some.inj hnew
  rfl

theorem blocked_run [Hex] {config : BackendConfig} {wsBroadcaster : Option WsBroadcaster}
    {start : ForwardingLoop} (hnew : TxForwarder.new config wsBroadcaster = some start)
    (hpermits : config.maxConcurrent = 0) (hendpoints : config.endpoints ≠ [])
    (events : List ForwardingEvent) : Blocked (run step start events) := by
  have hstart : Blocked start := by
    unfold TxForwarder.new at hnew
    split_ifs at hnew
    obtain ⟨dedup, -, rfl⟩ := Option.map_eq_some_iff.mp hnew
    exact ⟨hendpoints, hpermits, rfl, rfl⟩
  suffices hboth : Serves start (queuedIn events) (run step start events) ∧
      Blocked (run step start events) from hboth.2
  refine run_history (fun before loop ↦ Serves start (queuedIn before) loop ∧ Blocked loop)
    ⟨(delivering_new hnew).2.2.serves, hstart⟩ (fun before loop event hloop ↦ ?_) events
  refine ⟨queuedIn_concat before event ▸ hloop.1.step event, hloop.2.step ?_ event⟩
  intro hreceived
  rw [hloop.1.dedup, hreceived]
  exact checkAndInsert_new (dedup_of_new hnew)

/-! ### Every schedule -/

theorem settled_of_quiet [Hex] {config : BackendConfig} {wsBroadcaster : Option WsBroadcaster}
    {start loop : ForwardingLoop} {queued : List ForwardableTx}
    (hnew : TxForwarder.new config wsBroadcaster = some start)
    (hloop : Delivering config start queued loop)
    (hblocked : config.maxConcurrent = 0 → config.endpoints ≠ [] → Blocked loop)
    (hquiet : Quiet ForwardingEvent.isMove step loop) :
    Settled config wsBroadcaster start.dedup queued loop := by
  have hdelivers := hloop.deliversOnce hnew
  have hpermits := available_of_quiet hquiet hloop.bounded
  have hspawned := hdelivers.spawned
  have hnone : 0 < config.maxConcurrent ∨ config.endpoints = [] → loop.acquiring = none := by
    rintro (hpermit | hendpoints)
    · by_contra hacquiring
      obtain ⟨tx, htx⟩ := Option.ne_none_iff_exists'.mp hacquiring
      have hzero := permits_of_quiet hquiet htx
      omega
    · rw [hendpoints, List.isEmpty_nil, if_pos rfl, List.append_eq_nil_iff] at hspawned
      exact Option.toList_eq_nil_iff.mp hspawned.2
  have hreceived : loop.received =
      if 0 < config.maxConcurrent ∨ config.endpoints = [] then queued else queued.take 1 := by
    split_ifs with hfree
    · rw [hloop.serves.queued_eq, queue_of_quiet hquiet (hnone hfree), List.append_nil]
    · rw [not_or, Nat.pos_iff_ne_zero, not_not] at hfree
      have hqueued := hloop.serves.queued_eq
      rw [(hblocked hfree.1 hfree.2).received] at hqueued ⊢
      cases hacquiring : loop.acquiring with
      | some tx => rw [hqueued, hacquiring, Option.toList_some, List.singleton_append,
          List.take_succ_cons, List.take_zero]
      | none => rw [hqueued, hacquiring, queue_of_quiet hquiet hacquiring, Option.toList_none,
          List.append_nil, List.take_nil]
  have htasks : loop.tasks.map (·.tx) =
      if 0 < config.maxConcurrent ∧ config.endpoints ≠ [] then start.dedup.accepted queued
      else [] := by
    split_ifs with hposts
    · rw [hnone (Or.inl hposts.1), if_neg (by simpa using hposts.2), hreceived,
        if_pos (Or.inl hposts.1), Option.toList_none, List.append_nil] at hspawned
      exact hspawned
    · by_cases hendpoints : config.endpoints = []
      · rw [hendpoints, List.isEmpty_nil, if_pos rfl, List.append_eq_nil_iff] at hspawned
        exact hspawned.1
      · have hpermit : config.maxConcurrent = 0 := by
          simpa [hendpoints] using hposts
        rw [(hblocked hpermit hendpoints).tasks, List.map_nil]
  refine ⟨hreceived, hdelivers.broadcasts, htasks, fun index task htask ↦ ?_, fun hnothing ↦ ?_,
    hpermits⟩
  · have hfinished := finished_of_quiet hquiet htask
    exact ⟨hfinished, hdelivers.finished index task htask hfinished⟩
  · -- a post would belong to a task, and there is none
    have hnone : ¬ (0 < config.maxConcurrent ∧ config.endpoints ≠ []) := by
      rw [not_and_or, Nat.pos_iff_ne_zero, not_not, not_not]
      exact hnothing
    rw [if_neg hnone, List.map_eq_nil_iff] at htasks
    refine List.eq_nil_iff_forall_not_mem.mpr fun post hpost ↦ ?_
    obtain ⟨task, htask, -⟩ := hdelivers.posts_of_tasks post hpost
    rw [htasks, List.getElem?_nil] at htask
    cases htask

/-- The forwarding loop comes to rest, and everything that can be delivered has been. Assumes: a
configuration that `TxForwarder.new` accepts, and a schedule that queues nothing more and is weakly
fair, so that each post is answered or fails. For every run before it. -/
theorem forwarding_settles [Hex] (config : BackendConfig) (wsBroadcaster : Option WsBroadcaster)
    (start : ForwardingLoop) (hnew : TxForwarder.new config wsBroadcaster = some start)
    (events : List ForwardingEvent) (schedule : ℕ → ForwardingEvent)
    (hmoves : ∀ moment, (schedule moment).isMove)
    (hfair : WeaklyFair ForwardingEvent.isMove step (run step start events) schedule) :
    ∃ moment,
      let settled := stateAt step (run step start events) schedule moment
      Settled config wsBroadcaster start.dedup (queuedIn events) settled ∧
        ∀ later ≥ moment, stateAt step (run step start events) schedule later = settled := by
  obtain ⟨moment, hquiet, hstays⟩ := hfair.eventually_quiet works hmoves
  refine ⟨moment, ?_, hstays⟩
  have hqueued : queuedIn (events ++ (List.range moment).map schedule) = queuedIn events := by
    have hnone : queuedIn ((List.range moment).map schedule) = [] :=
      queuedIn_of_moves (List.forall_mem_map.mpr fun later _ ↦ hmoves later)
    rw [queuedIn_append, hnone, List.append_nil]
  rw [stateAt_run] at hquiet ⊢
  rw [← hqueued]
  exact settled_of_quiet hnew (delivering_run hnew _)
    (fun hpermits hendpoints ↦ blocked_run hnew hpermits hendpoints _) hquiet

/-- One transaction that has been posted; the endpoint answers, and the task drops its permit. -/
theorem forwarding_settles_of_one :
    let _ : Hex := .lower
    let config : BackendConfig := ⟨["http://a:8545"], 1, 4, ⟨4⟩⟩
    let events : List ForwardingEvent :=
      [.forward ⟨.repeatByte 1, [2]⟩, .receive, .acquire, .resume 0]
    let schedule : ℕ → ForwardingEvent
      | 0 => .reply 0 .success
      | _ => .resume 0
    ∃ start, TxForwarder.new config none = some start ∧ ∃ moment,
      let settled := stateAt step (run step start events) schedule moment
      Settled config none start.dedup (queuedIn events) settled ∧
        ∀ later ≥ moment, stateAt step (run step start events) schedule later = settled := by
  intro hex config events schedule
  have hmoves : ∀ moment, (schedule moment).isMove := fun moment ↦ by
    cases moment <;> rfl
  refine ⟨_, rfl, forwarding_settles config none _ rfl events schedule hmoves ?_⟩
  refine @Quiet.weaklyFair _ _ _ _ _ _ 2 (fun event hevent ↦ ?_) hmoves
  cases event with
  | forward tx => cases hevent
  | receive | acquire => rfl
  | resume index => cases index <;> rfl
  | reply index outcome => cases index <;> rfl

end ForwardingLoop

end SentryNode
