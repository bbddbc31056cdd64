import SentryNode.Forwarder.Delivery

/-!
# Broadcasts and slow endpoints

The loop that broadcasts a transaction also waits for the permit under which it is posted. As long
as permits are free the broadcasts do not wait for the endpoints. When every permit is held by a
task that still needs a reply, the loop waits with them, and what is queued behind is not broadcast
before one of these endpoints has answered.

`proceeds_iff` is the exact condition under which the loop goes on without a reply.
`broadcasts_backpressure` states it for every run, together with the comparison: once only replies
are outstanding, the broadcasts are those of a run without endpoints on the same transactions, or,
when the loop waits, on those received so far.
-/

set_option autoImplicit false
set_option relaxedAutoImplicit false

namespace SentryNode

open Library

/-- A step of the loop or of a task, as against a new transaction or a reply. -/
def ForwardingEvent.isOwn : ForwardingEvent → Bool
  | .forward _ => false
  | .reply _ _ => false
  | _ => true

namespace ForwardingLoop

/-- The task cannot finish without a reply of an endpoint. -/
def NeedsReply (endpoints : List String) (task : ForwardingTask) : Prop :=
  task.phase = .awaiting ∨ task.phase = .running ∧ task.posted < endpoints.length

/-- The task has only its permit left to drop. -/
def AtEnd (endpoints : List String) (task : ForwardingTask) : Prop :=
  task.phase = .running ∧ endpoints.length ≤ task.posted

instance (endpoints : List String) (task : ForwardingTask) :
    Decidable (NeedsReply endpoints task) :=
  inferInstanceAs (Decidable (_ ∨ _))

instance (endpoints : List String) (task : ForwardingTask) : Decidable (AtEnd endpoints task) :=
  inferInstanceAs (Decidable (_ ∧ _))

/-- The number of tasks that cannot finish without a reply. -/
def needingReply (loop : ForwardingLoop) : ℕ :=
  loop.tasks.countP fun task ↦ NeedsReply loop.endpoints task

/-- Without any reply the loop can come to receive the next transaction, and to broadcast it. -/
def Proceeds [Hex] (loop : ForwardingLoop) : Prop :=
  ∃ events : List ForwardingEvent, (∀ event ∈ events, event.isOwn) ∧
    ∃ tx, loop.queue.head? = some tx ∧ (run step loop events).received = loop.received ++ [tx]

/-- Only replies are outstanding: nothing else can change the state. -/
def OnlyRepliesOutstanding [Hex] (loop : ForwardingLoop) : Prop :=
  ∀ event : ForwardingEvent, event.isOwn → loop.step event = loop

/-! ### Tasks that need a reply -/

/-- A task that holds a permit needs a reply or is at its end. -/
theorem unfinished_iff (endpoints : List String) (task : ForwardingTask) :
    task.Unfinished ↔ NeedsReply endpoints task ∨ AtEnd endpoints task := by
  unfold ForwardingTask.Unfinished NeedsReply AtEnd
  cases hphase : task.phase with
  | running => simpa using Nat.lt_or_ge task.posted endpoints.length
  | awaiting | finished => simp

theorem not_atEnd {endpoints : List String} {task : ForwardingTask}
    (hneeds : NeedsReply endpoints task) : ¬ AtEnd endpoints task := by
  rintro ⟨hrunning, hall⟩
  rcases hneeds with hawaiting | ⟨-, hleft⟩
  · rw [hrunning] at hawaiting
    cases hawaiting
  · exact absurd hleft (Nat.not_lt_of_le hall)

theorem unfinished_eq (loop : ForwardingLoop) :
    loop.unfinished =
      loop.needingReply + loop.tasks.countP fun task ↦ AtEnd loop.endpoints task := by
  unfold unfinished needingReply
  induction loop.tasks with
  | nil => rfl
  | cons task tasks ih =>
    simp only [List.countP_cons, decide_eq_true_eq, unfinished_iff loop.endpoints task, ih]
    by_cases hneeds : NeedsReply loop.endpoints task
    · rw [if_pos (Or.inl hneeds), if_pos hneeds, if_neg (not_atEnd hneeds)]
      omega
    · by_cases hend : AtEnd loop.endpoints task
      · rw [if_pos (Or.inr hend), if_neg hneeds, if_pos hend]
        omega
      · rw [if_neg (not_or.mpr ⟨hneeds, hend⟩), if_neg hneeds, if_neg hend]
        omega

theorem exists_atEnd {loop : ForwardingLoop} (hfree : loop.needingReply < loop.unfinished) :
    ∃ (index : ℕ) (task : ForwardingTask), loop.tasks[index]? = some task ∧
      AtEnd loop.endpoints task := by
  rw [unfinished_eq] at hfree
  have hpos : 0 < loop.tasks.countP fun task ↦ AtEnd loop.endpoints task := by omega
  obtain ⟨task, htask, hend⟩ := List.countP_pos_iff.mp hpos
  obtain ⟨index, hindex⟩ := List.mem_iff_getElem?.mp htask
  exact ⟨index, task, hindex, of_decide_eq_true hend⟩

/-! ### Going on without replies -/

section Proceeds

variable {loop : ForwardingLoop}

/-- The next transaction is received when the loop waits for none. -/
theorem receive_next {tx : ForwardableTx} {queue : List ForwardableTx}
    (hnone : loop.acquiring = none) (hqueue : loop.queue = tx :: queue) :
    loop.receive.received = loop.received ++ [tx] ∧ loop.receive.queue = queue := by
  unfold receive
  rw [hnone, hqueue]
  dsimp only
  split_ifs <;> exact ⟨rfl, rfl⟩

theorem proceeds_of_none [Hex] (hnone : loop.acquiring = none) (hqueue : loop.queue ≠ []) :
    Proceeds loop := by
  obtain ⟨tx, queue, heq⟩ := List.exists_cons_of_ne_nil hqueue
  refine ⟨[.receive], by decide, tx, ?_, (receive_next hnone heq).1⟩
  rw [heq, List.head?_cons]

/-- A step that receives nothing only postpones. -/
theorem Proceeds.of_step [Hex] {event : ForwardingEvent} (hown : event.isOwn)
    (hqueue : (loop.step event).queue = loop.queue)
    (hreceived : (loop.step event).received = loop.received)
    (hproceeds : Proceeds (loop.step event)) : Proceeds loop := by
  obtain ⟨events, hevents, tx, hhead, hrun⟩ := hproceeds
  refine ⟨event :: events, List.forall_mem_cons.mpr ⟨hown, hevents⟩, tx, ?_, ?_⟩
  · rwa [← hqueue]
  · rw [run_cons, hrun, hreceived]

theorem proceeds_of_permit [Hex] (hpermit : 0 < loop.availablePermits) (hqueue : loop.queue ≠ []) :
    Proceeds loop := by
  cases hacquiring : loop.acquiring with
  | none => exact proceeds_of_none hacquiring hqueue
  | some tx =>
    have hstep : loop.step .acquire = { loop with
        acquiring := none
        availablePermits := loop.availablePermits - 1
        idCounter := loop.idCounter + 1
        tasks := loop.tasks ++
          [{ tx, id := loop.idCounter + 1, posted := 0, phase := .running }] } := by
      rw [step, acquire, hacquiring]
      exact if_neg (Nat.ne_of_gt hpermit)
    refine @Proceeds.of_step loop _ .acquire rfl ?_ ?_ ?_
    all_goals rw [hstep]
    exact proceeds_of_none rfl hqueue

/-- A task at its end gives its permit back without a reply. -/
theorem proceeds_of_atEnd [Hex] {index : ℕ} {task : ForwardingTask}
    (htask : loop.tasks[index]? = some task) (hend : AtEnd loop.endpoints task)
    (hqueue : loop.queue ≠ []) : Proceeds loop := by
  have hstep : loop.step (.resume index) = { loop with
      tasks := loop.tasks.set index task.finish
      availablePermits := loop.availablePermits + 1 } := by
    rw [step, resume, htask]
    dsimp only
    rw [hend.1, List.getElem?_eq_none hend.2]
  refine @Proceeds.of_step loop _ (.resume index) rfl ?_ ?_ ?_
  all_goals rw [hstep]
  exact proceeds_of_permit (Nat.succ_pos _) hqueue

end Proceeds

/-! ### Waiting for replies -/

/-- The loop waits for a permit, and nobody can give one back without a reply. -/
structure Stuck (loop : ForwardingLoop) : Prop where
  acquiring : loop.acquiring ≠ none
  no_permit : loop.availablePermits = 0
  no_end : ∀ task ∈ loop.tasks, ¬ AtEnd loop.endpoints task

section Stuck

variable {loop : ForwardingLoop}

theorem Stuck.receive_eq (hstuck : Stuck loop) : loop.receive = loop := by
  rcases receive_cases loop with heq | ⟨tx, queue, hnone, -, -⟩
  · exact heq
  · exact absurd hnone hstuck.acquiring

theorem Stuck.acquire_eq (hstuck : Stuck loop) : loop.acquire = loop := by
  rcases acquire_cases loop with heq | ⟨tx, -, hpermit, -⟩
  · exact heq
  · exact absurd hstuck.no_permit (Nat.ne_of_gt hpermit)

/-- The tasks go on posting, but none of them comes to its end. -/
theorem Stuck.resume [Hex] (hstuck : Stuck loop) (index : ℕ) :
    Stuck (loop.resume index) ∧ (loop.resume index).received = loop.received := by
  rcases resume_cases loop index with heq | ⟨task, endpoint, htask, -, -, heq⟩ |
    ⟨task, htask, hrunning, hnone, heq⟩
  · rw [heq]
    exact ⟨hstuck, rfl⟩
  · rw [heq]
    refine ⟨⟨hstuck.acquiring, hstuck.no_permit, fun other hother hend ↦ ?_⟩, rfl⟩
    rcases List.mem_or_eq_of_mem_set hother with hold | rfl
    · exact hstuck.no_end other hold hend
    · cases hend.1
  · exact absurd ⟨hrunning, List.getElem?_eq_none_iff.mp hnone⟩
      (hstuck.no_end task (List.mem_of_getElem? htask))

theorem Stuck.step [Hex] (hstuck : Stuck loop) {event : ForwardingEvent} (hown : event.isOwn) :
    Stuck (loop.step event) ∧ (loop.step event).received = loop.received := by
  cases event with
  | forward | reply => cases hown
  | receive =>
    show Stuck loop.receive ∧ loop.receive.received = loop.received
    rw [hstuck.receive_eq]
    exact ⟨hstuck, rfl⟩
  | acquire =>
    show Stuck loop.acquire ∧ loop.acquire.received = loop.received
    rw [hstuck.acquire_eq]
    exact ⟨hstuck, rfl⟩
  | resume index => exact hstuck.resume index

theorem Stuck.not_proceeds [Hex] (hstuck : Stuck loop) : ¬ Proceeds loop := by
  rintro ⟨events, hevents, tx, -, hreceived⟩
  have hsame : Stuck (run ForwardingLoop.step loop events) ∧
      (run ForwardingLoop.step loop events).received = loop.received := by
    refine run_invariant (fun other ↦ Stuck other ∧ other.received = loop.received)
      (fun other event hown hother ↦ ?_) ⟨hstuck, rfl⟩ (eachStep_of_forall hevents)
    obtain ⟨hnext, hnextReceived⟩ := hother.1.step hown
    exact ⟨hnext, hnextReceived.trans hother.2⟩
  rw [hsame.2] at hreceived
  exact List.cons_ne_nil tx [] (List.self_eq_append_right.mp hreceived)

/-- Where nobody can proceed, every permit is held by a task that needs a reply. -/
theorem stuck_of_needingReply {permits : ℕ} (hbounded : Bounded permits loop)
    (hacquiring : loop.acquiring ≠ none) (hfull : permits ≤ loop.needingReply) : Stuck loop := by
  unfold Bounded at hbounded
  have hunfinished := unfinished_eq loop
  refine ⟨hacquiring, by omega, fun task htask hend ↦ ?_⟩
  have hpos : 0 < loop.tasks.countP fun task ↦ AtEnd loop.endpoints task :=
    List.countP_pos_iff.mpr ⟨task, htask, decide_eq_true hend⟩
  omega

end Stuck

/-- When the loop goes on without a reply: unless it waits for a permit and every permit is held by
a task that needs a reply. -/
theorem proceeds_iff [Hex] {loop : ForwardingLoop} {permits : ℕ} (hbounded : Bounded permits loop)
    (hqueue : loop.queue ≠ []) :
    Proceeds loop ↔ loop.acquiring = none ∨ loop.needingReply < permits := by
  constructor
  · intro hproceeds
    by_contra hwaits
    rw [not_or, Nat.not_lt] at hwaits
    exact (stuck_of_needingReply hbounded hwaits.1 hwaits.2).not_proceeds hproceeds
  · rintro (hnone | hfree)
    · exact proceeds_of_none hnone hqueue
    · by_cases hpermit : loop.availablePermits = 0
      · have hunfinished : loop.needingReply < loop.unfinished := by
          unfold Bounded at hbounded
          omega
        obtain ⟨index, task, htask, hend⟩ := exists_atEnd hunfinished
        exact proceeds_of_atEnd htask hend hqueue
      · exact proceeds_of_permit (Nat.pos_of_ne_zero hpermit) hqueue

/-! ### Comparison with a run without endpoints -/

/-- Where only replies are outstanding, the loop does not go on without one. -/
theorem OnlyRepliesOutstanding.not_proceeds [Hex] {loop : ForwardingLoop}
    (hreplies : OnlyRepliesOutstanding loop) : ¬ Proceeds loop := by
  rintro ⟨events, hevents, tx, -, hreceived⟩
  have hsame : run step loop events = loop := by
    refine run_invariant (fun other ↦ other = loop) (fun other event hown hother ↦ ?_) rfl
      (eachStep_of_forall hevents)
    rw [hother]
    exact hreplies event hown
  rw [hsame] at hreceived
  exact List.cons_ne_nil tx [] (List.self_eq_append_right.mp hreceived)

/-- A run without endpoints on some transactions, after which nothing is left to do, has broadcast a
result. -/
def WithoutEndpoints [Hex] (config : BackendConfig) (wsBroadcaster : Option WsBroadcaster)
    (txs : List ForwardableTx) (result : Option WsBroadcaster) : Prop :=
  ∃ start events, TxForwarder.new { config with endpoints := [] } wsBroadcaster = some start ∧
    queuedIn events = txs ∧ OnlyRepliesOutstanding (run step start events) ∧
    (run step start events).wsBroadcaster = result

/-- Each transaction is received as soon as it is queued. -/
def promptly (txs : List ForwardableTx) : List ForwardingEvent :=
  txs.flatMap fun tx ↦ [.forward tx, .receive]

theorem queuedIn_promptly (txs : List ForwardableTx) : queuedIn (promptly txs) = txs := by
  induction txs with
  | nil => rfl
  | cons tx txs ih =>
    show tx :: queuedIn (promptly txs) = _
    rw [ih]

/-- Without endpoints nothing is handed to a task. -/
theorem Serves.no_tasks {start loop : ForwardingLoop} {queued : List ForwardableTx}
    (hserves : Serves start queued loop) (hempty : start.endpoints = []) :
    loop.tasks = [] ∧ loop.acquiring = none := by
  have hhanded := hserves.handed
  rw [hempty, List.isEmpty_nil, if_pos rfl, List.append_eq_nil_iff, List.map_eq_nil_iff] at hhanded
  exact ⟨hhanded.1, Option.toList_eq_nil_iff.mp hhanded.2⟩

theorem queue_promptly [Hex] (txs : List ForwardableTx) {start loop : ForwardingLoop}
    {queued : List ForwardableTx} (hserves : Serves start queued loop)
    (hempty : start.endpoints = []) (hqueue : loop.queue = []) :
    (run step loop (promptly txs)).queue = [] := by
  induction txs generalizing loop queued with
  | nil => exact hqueue
  | cons tx txs ih =>
    have hforward : Serves start (queued ++ [tx]) (loop.step (.forward tx)) := hserves.forward tx
    have hnext : (loop.step (.forward tx)).queue = [tx] := by
      show loop.queue ++ [tx] = [tx]
      rw [hqueue, List.nil_append]
    exact ih hforward.receive (receive_next (hforward.no_tasks hempty).2 hnext).2

theorem exists_without_endpoints {config : BackendConfig} {wsBroadcaster : Option WsBroadcaster}
    {start : ForwardingLoop} (hnew : TxForwarder.new config wsBroadcaster = some start) :
    ∃ other, TxForwarder.new { config with endpoints := [] } wsBroadcaster = some other := by
  have hdedup := dedup_of_new hnew
  unfold TxForwarder.new at hnew ⊢
  split_ifs at hnew with haccepted
  rw [if_pos haccepted, hdedup]
  exact ⟨_, rfl⟩

theorem onlyRepliesOutstanding_of_done [Hex] {loop : ForwardingLoop} (hqueue : loop.queue = [])
    (hacquiring : loop.acquiring = none) (htasks : loop.tasks = []) :
    OnlyRepliesOutstanding loop := by
  intro event hown
  cases event with
  | forward | reply => cases hown
  | receive => rw [step, receive, hacquiring, hqueue]
  | acquire => rw [step, acquire, hacquiring]
  | resume index => rw [step, resume, htasks, List.getElem?_nil]

/-- Without endpoints the broadcasts are those of the accepted transactions. -/
theorem withoutEndpoints_iff [Hex] {config : BackendConfig} {wsBroadcaster : Option WsBroadcaster}
    {start : ForwardingLoop} (hnew : TxForwarder.new config wsBroadcaster = some start)
    (txs : List ForwardableTx) (result : Option WsBroadcaster) :
    WithoutEndpoints config wsBroadcaster txs result ↔
      result = announcing wsBroadcaster (start.dedup.accepted txs) := by
  have hall : ∀ other, TxForwarder.new { config with endpoints := [] } wsBroadcaster = some other →
      ∀ events, (run step other events).queue = [] →
        (run step other events).wsBroadcaster =
          announcing wsBroadcaster (start.dedup.accepted (queuedIn events)) := by
    intro other hother events hqueue
    have hserves := (delivering_run hother events).serves
    have hotherDedup : TxDedup.new config.dedup = some other.dedup :=
      @dedup_of_new { config with endpoints := [] } _ _ hother
    rw [dedup_of_new hnew, Option.some_inj] at hotherDedup
    rw [hserves.wsBroadcaster, (delivering_new hother).2.1, hotherDedup, hserves.queued_eq, hqueue,
      List.append_nil]
  constructor
  · rintro ⟨other, events, hother, rfl, hreplies, rfl⟩
    refine hall other hother events ?_
    have hserves := (delivering_run hother events).serves
    have hnone := (hserves.no_tasks (delivering_new hother).1).2
    by_contra hqueue
    exact hreplies.not_proceeds (proceeds_of_none hnone hqueue)
  · rintro rfl
    obtain ⟨other, hother⟩ := exists_without_endpoints hnew
    obtain ⟨hempty, -, hdelivering⟩ := delivering_new hother
    have hstart := (List.append_eq_nil_iff.mp hdelivering.serves.queued_eq.symm).2
    have hqueue := queue_promptly txs hdelivering.serves hempty hstart
    have hnone := (delivering_run hother (promptly txs)).serves.no_tasks hempty
    refine ⟨other, promptly txs, hother, queuedIn_promptly txs, ?_, ?_⟩
    · exact onlyRepliesOutstanding_of_done hqueue hnone.2 hnone.1
    · rw [hall other hother _ hqueue, queuedIn_promptly]

/-! ### Every run -/

/-- How far the broadcasts depend on the endpoints. With a transaction queued, the loop goes on
without a reply unless it waits for a permit and every permit is held by a task that needs one. In
every state the broadcasts are those of a run without endpoints on the transactions received; and
when only replies are outstanding and the loop does not wait, on all that were queued. -/
structure Backpressure [Hex] (config : BackendConfig) (wsBroadcaster : Option WsBroadcaster)
    (queued : List ForwardableTx) (loop : ForwardingLoop) : Prop where
  proceeds_iff : loop.queue ≠ [] →
    (Proceeds loop ↔ loop.acquiring = none ∨ loop.needingReply < config.maxConcurrent)
  received : ∀ result,
    WithoutEndpoints config wsBroadcaster loop.received result ↔ loop.wsBroadcaster = result
  settled : OnlyRepliesOutstanding loop →
    loop.acquiring = none ∨ loop.needingReply < config.maxConcurrent →
    ∀ result, WithoutEndpoints config wsBroadcaster queued result ↔ loop.wsBroadcaster = result

/-- The broadcasts wait for the endpoints only while every permit is held by a task that needs a
reply. Assumes: a configuration that `TxForwarder.new` accepts. For every run, whatever the
endpoints answer and whether they answer. -/
theorem broadcasts_backpressure [Hex] (config : BackendConfig)
    (wsBroadcaster : Option WsBroadcaster) (start : ForwardingLoop)
    (hnew : TxForwarder.new config wsBroadcaster = some start) (events : List ForwardingEvent) :
    Backpressure config wsBroadcaster (queuedIn events) (run step start events) := by
  have hloop := delivering_run hnew events
  have hbroadcasts : (run step start events).wsBroadcaster =
      announcing wsBroadcaster (start.dedup.accepted (run step start events).received) :=
    (hloop.deliversOnce hnew).broadcasts
  have hreceived : ∀ result,
      WithoutEndpoints config wsBroadcaster (run step start events).received result ↔
        (run step start events).wsBroadcaster = result := by
    intro result
    rw [withoutEndpoints_iff hnew, hbroadcasts]
    exact eq_comm
  refine ⟨ForwardingLoop.proceeds_iff hloop.bounded, hreceived, fun hreplies hfree ↦ ?_⟩
  have hqueue : (run step start events).queue = [] := by
    by_contra hqueue
    exact hreplies.not_proceeds ((ForwardingLoop.proceeds_iff hloop.bounded hqueue).mpr hfree)
  rw [hloop.serves.queued_eq, hqueue, List.append_nil]
  exact hreceived

/-- One permit, and an endpoint that has been asked and may never answer. -/
theorem broadcasts_backpressure_of_one :
    let _ : Hex := .lower
    let config : BackendConfig := ⟨["http://a:8545"], 1, 4, ⟨4⟩⟩
    let events : List ForwardingEvent :=
      [.forward ⟨.repeatByte 1, [1]⟩, .forward ⟨.repeatByte 2, [2]⟩, .receive, .acquire, .resume 0]
    ∃ start, TxForwarder.new config (some ⟨[]⟩) = some start ∧
      Backpressure config (some ⟨[]⟩) (queuedIn events) (run step start events) := by
  intro hex config events
  exact ⟨_, rfl, broadcasts_backpressure config (some ⟨[]⟩) _ rfl events⟩

/-- One permit and an endpoint that never answers: the second of three transactions is broadcast and
waits for the permit, and the third is not broadcast, as it is without endpoints. -/
theorem hung_endpoint_blocks_broadcast :
    let _ : Hex := .lower
    let config : BackendConfig := ⟨["http://a:8545"], 1, 4, ⟨4⟩⟩
    let txs : List ForwardableTx :=
      [⟨.repeatByte 1, [1]⟩, ⟨.repeatByte 2, [2]⟩, ⟨.repeatByte 3, [3]⟩]
    let events : List ForwardingEvent :=
      txs.map .forward ++ [.receive, .acquire, .resume 0, .receive]
    ∃ start, TxForwarder.new config (some ⟨[]⟩) = some start ∧ queuedIn events = txs ∧
      OnlyRepliesOutstanding (run step start events) ∧ (run step start events).queue ≠ [] ∧
      ¬ Proceeds (run step start events) ∧
      ¬ WithoutEndpoints config (some ⟨[]⟩) txs (run step start events).wsBroadcaster := by
  intro hex config txs events
  refine ⟨_, rfl, rfl, ?_, List.cons_ne_nil _ _, ?_, ?_⟩
  · intro event hown
    cases event with
    | forward | reply => cases hown
    | receive | acquire => rfl
    | resume index => cases index <;> rfl
  · exact Stuck.not_proceeds ⟨Option.some_ne_none _, rfl, by decide⟩
  · rw [withoutEndpoints_iff rfl]
    decide

end ForwardingLoop

end SentryNode
