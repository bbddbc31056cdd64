import Mathlib.Logic.Relation
import SentryNode.Network.Gossip.Circulation

/-!
# Where a block comes to

A sentry relays every block it is given to all its peers, so a block comes to every sentry that can
be reached from one which it has come to. `gossip_spreads` states it for schedules that may bring
further blocks without end: when every request for the peers is answered, and no delivery and no
step of a task is put off forever, each of these sentries is given the block, advertises it as its
head and sends it to all its own peers. Messages may overtake each other, and a sentry may have any
number of other blocks to relay before.
-/

set_option autoImplicit false
set_option relaxedAutoImplicit false

namespace SentryNode.Network

open Library

variable {Node Rest Body : Type*}

/-! ### One node -/

namespace Sentry

/-- The steps of the task that are still to come before it has relayed the block at an index, or
dropped it. -/
def stepsTo (sentry : Sentry Node Rest Body) (index : ℕ) : ℕ :=
  2 * (index + 1) + sentry.rebroadcasting.toList.length - 2 * sentry.received

theorem stepsTo_receive_le (sentry : Sentry Node Rest Body) (index : ℕ) :
    sentry.receive.stepsTo index ≤ sentry.stepsTo index := by
  rcases receive_cases sentry with heq | ⟨newBlock, hnone, -, heq⟩
  · rw [heq]
  · rw [heq, stepsTo, stepsTo, hnone]
    simp only [Option.toList_some, Option.toList_none, List.length_singleton, List.length_nil]
    omega

theorem stepsTo_answer_le (sentry : Sentry Node Rest Body) (index : ℕ)
    (peers : Option (List Node)) :
    (sentry.answer peers).stepsTo index ≤ sentry.stepsTo index := by
  simp only [stepsTo, answer, Option.toList_none, List.length_nil]
  omega

/-- A task that has an odd number of steps to go waits for the peers. -/
theorem stepsTo_answer_lt {sentry : Sentry Node Rest Body} {index : ℕ}
    (hodd : sentry.stepsTo index % 2 = 1) (peers : Option (List Node)) :
    (sentry.answer peers).stepsTo index < sentry.stepsTo index := by
  cases hwaiting : sentry.rebroadcasting with
  | none =>
    rw [stepsTo, hwaiting, Option.toList_none, List.length_nil] at hodd
    omega
  | some newBlock =>
    simp only [stepsTo, hwaiting, answer, Option.toList_some, Option.toList_none,
      List.length_singleton, List.length_nil] at hodd ⊢
    omega

/-- With an even number of steps to go it takes the next block. -/
theorem stepsTo_receive_lt {sentry : Sentry Node Rest Body} {index : ℕ}
    (heven : sentry.stepsTo index % 2 = 0) (hpos : sentry.stepsTo index ≠ 0)
    (hindex : index < sentry.arrived.length) :
    sentry.receive.stepsTo index < sentry.stepsTo index := by
  cases hwaiting : sentry.rebroadcasting with
  | none =>
    simp only [stepsTo, hwaiting, Option.toList_none, List.length_nil] at heven hpos
    obtain ⟨newBlock, hnext⟩ : ∃ newBlock, sentry.arrived[sentry.received]? = some newBlock :=
      ⟨_, List.getElem?_eq_getElem (by omega)⟩
    rw [receive_of_next hwaiting hnext]
    simp only [stepsTo, hwaiting, Option.toList_some, Option.toList_none, List.length_singleton,
      List.length_nil]
    omega
  | some newBlock =>
    simp only [stepsTo, hwaiting, Option.toList_some, List.length_singleton] at heven hpos
    omega

end Sentry

/-- The block has gone through a node: it was advertised as the head and sent to all the peers. -/
structure Through (connected : List Node) (newBlock : NewBlockData Rest Body)
    (sentry : Sentry Node Rest Body) : Prop where
  arrived : newBlock ∈ sentry.arrived
  head : headOf newBlock ∈ sentry.statuses
  sent : ∀ peer ∈ connected, (peer, messageOf newBlock) ∈ sentry.sent

/-- With no steps to go, the block has gone through. -/
theorem through_of_stepsTo {connected : List Node}
    {finished relayed : List (NewBlockData Rest Body)} {sentry : Sentry Node Rest Body}
    (hadvertises : Advertises sentry)
    (haccounts : Accounts connected True finished relayed sentry) {index : ℕ}
    {newBlock : NewBlockData Rest Body} (hblock : sentry.arrived[index]? = some newBlock)
    (hsteps : sentry.stepsTo index = 0) : Through connected newBlock sentry := by
  have hwaiting : sentry.rebroadcasting.toList.length ≤ 1 := by
    cases sentry.rebroadcasting <;> simp
  rw [Sentry.stepsTo] at hsteps
  have hfinished : newBlock ∈ finished := by
    rw [← haccounts.finished_eq, Sentry.finished]
    exact List.mem_of_getElem? ((List.getElem?_take_of_lt (by omega)).trans hblock)
  have htaken : newBlock ∈ sentry.taken :=
    List.mem_of_getElem? ((List.getElem?_take_of_lt (by omega)).trans hblock)
  refine ⟨List.mem_of_getElem? hblock, ?_, fun peer hpeer ↦ ?_⟩
  · rw [hadvertises.statuses_eq]
    exact List.mem_map_of_mem htaken
  · rw [haccounts.sent_eq, haccounts.relayed_eq trivial]
    exact List.mem_flatMap.mpr ⟨newBlock, hfinished, List.mem_map_of_mem hpeer⟩

variable [DecidableEq Node]

/-! ### One step of the network -/

namespace Gossip

variable {links : Node → List Node} {network : Gossip Node Rest Body}

/-- What a step of the network is for one node. What the node sends goes into flight. -/
theorem sentry_step_cases (links : Node → List Node) (network : Gossip Node Rest Body)
    (event : GossipEvent Node Rest Body) (node : Node) :
    (network.step links event).sentry node = network.sentry node ∨
      (∃ msg, (network.step links event).sentry node =
        (network.sentry node).onNewBlock (.block msg)) ∨
      (network.step links event).sentry node = (network.sentry node).receive ∨
      ∃ peers, (network.step links event).sentry node = (network.sentry node).answer peers ∧
        (network.step links event).inFlight =
          network.inFlight ++ (network.sentry node).outgoing peers := by
  have hmove : ∀ (mover : Node) (moved : Sentry Node Rest Body),
      (network.move mover moved).sentry node = network.sentry node ∨
        mover = node ∧ (network.move mover moved).sentry node = moved := fun mover moved ↦ by
    by_cases hmover : mover = node
    · subst hmover
      exact Or.inr ⟨rfl, Function.update_self _ _ _⟩
    · exact Or.inl (Function.update_of_ne (Ne.symm hmover) _ _)
  cases event with
  | inject mover msg =>
    rcases hmove mover ((network.sentry mover).onNewBlock (.block msg)) with hsame | ⟨rfl, hmoved⟩
    · exact Or.inl hsame
    · exact Or.inr (Or.inl ⟨msg, hmoved⟩)
  | deliver position =>
    rw [step]
    split
    next mover msg _ =>
      rcases hmove mover ((network.sentry mover).onNewBlock (.block msg)) with hsame | ⟨rfl, hmoved⟩
      · exact Or.inl hsame
      · exact Or.inr (Or.inl ⟨msg, hmoved⟩)
    next => exact Or.inl rfl
  | receive mover =>
    rcases hmove mover (network.sentry mover).receive with hsame | ⟨rfl, hmoved⟩
    · exact Or.inl hsame
    · exact Or.inr (Or.inr (Or.inl hmoved))
  | peers mover told =>
    rcases hmove mover ((network.sentry mover).answer (if told then some (links mover) else none))
      with hsame | ⟨rfl, hmoved⟩
    · exact Or.inl hsame
    · exact Or.inr (Or.inr (Or.inr ⟨_, hmoved, rfl⟩))

/-- A block that arrived keeps its place in the channel. -/
theorem arrived_step {node : Node} {index : ℕ} {newBlock : NewBlockData Rest Body}
    (hblock : (network.sentry node).arrived[index]? = some newBlock)
    (event : GossipEvent Node Rest Body) :
    ((network.step links event).sentry node).arrived[index]? = some newBlock := by
  rcases sentry_step_cases links network event node with heq | ⟨msg, heq⟩ | heq | ⟨peers, heq, -⟩
  · rwa [heq]
  · rw [heq, arrived_onNewBlock]
    exact (List.getElem?_append_left (List.getElem?_eq_some_iff.mp hblock).1).trans hblock
  · rwa [heq, arrived_receive]
  · rw [heq]
    exact hblock

theorem stepsTo_step_le (links : Node → List Node) (network : Gossip Node Rest Body)
    (event : GossipEvent Node Rest Body) (node : Node) (index : ℕ) :
    ((network.step links event).sentry node).stepsTo index ≤
      (network.sentry node).stepsTo index := by
  rcases sentry_step_cases links network event node with heq | ⟨msg, heq⟩ | heq | ⟨peers, heq, -⟩
  · rw [heq]
  · rw [heq]
    exact Nat.le_refl _
  · rw [heq]
    exact Sentry.stepsTo_receive_le _ _
  · rw [heq]
    exact Sentry.stepsTo_answer_le _ _ _

/-- The step that the task of a node can make brings a block of its channel nearer to its end. -/
theorem stepsTo_helpful {node : Node} {index : ℕ} {newBlock : NewBlockData Rest Body}
    (hblock : (network.sentry node).arrived[index]? = some newBlock) {rank : ℕ}
    (hrank : (network.sentry node).stepsTo index = rank) :
    let moved := network.step links (if rank % 2 = 0 then .receive node else .peers node true)
    (moved.sentry node).stepsTo index = 0 ∨
      ∃ lower < rank, (moved.sentry node).stepsTo index = lower := by
  intro moved
  by_cases hzero : rank = 0
  · left
    have hle : (moved.sentry node).stepsTo index ≤ (network.sentry node).stepsTo index :=
      stepsTo_step_le links network _ node index
    rw [hrank, hzero] at hle
    exact Nat.le_zero.mp hle
  right
  refine ⟨_, ?_, rfl⟩
  subst hrank
  by_cases heven : (network.sentry node).stepsTo index % 2 = 0
  · simp only [moved, if_pos heven, step, move, Function.update_self]
    exact Sentry.stepsTo_receive_lt heven hzero (List.getElem?_eq_some_iff.mp hblock).1
  · simp only [moved, if_neg heven, step, move, Function.update_self]
    exact Sentry.stepsTo_answer_lt (Nat.mod_two_ne_zero.mp heven) _

/-- A block that is given to a node arrives there. -/
theorem mem_arrived_deliver {position : ℕ} {peer : Node} {newBlock : NewBlockData Rest Body}
    (hflight : network.inFlight[position]? = some (peer, messageOf newBlock)) :
    newBlock ∈ ((network.step links (.deliver position)).sentry peer).arrived := by
  simp only [step, hflight, move, Function.update_self, arrived_onNewBlock]
  exact List.mem_append_right _ (List.mem_singleton_self newBlock)

/-- A message in flight is delivered, or comes no further behind. -/
theorem inFlight_step (links : Node → List Node) {position : ℕ} {peer : Node}
    {newBlock : NewBlockData Rest Body}
    (hflight : network.inFlight[position]? = some (peer, messageOf newBlock))
    (event : GossipEvent Node Rest Body) :
    newBlock ∈ ((network.step links event).sentry peer).arrived ∨
      ∃ nearer ≤ position,
        (network.step links event).inFlight[nearer]? = some (peer, messageOf newBlock) := by
  cases event with
  | inject node msg => exact Or.inr ⟨position, Nat.le_refl _, hflight⟩
  | receive node => exact Or.inr ⟨position, Nat.le_refl _, hflight⟩
  | peers node told =>
    have hlt := (List.getElem?_eq_some_iff.mp hflight).1
    exact Or.inr ⟨position, Nat.le_refl _, (List.getElem?_append_left hlt).trans hflight⟩
  | deliver first =>
    rcases Nat.lt_trichotomy first position with hlt | rfl | hgt
    · obtain ⟨⟨node, msg⟩, hfirst⟩ : ∃ message, network.inFlight[first]? = some message :=
        ⟨_, List.getElem?_eq_getElem
          (Nat.lt_trans hlt (List.getElem?_eq_some_iff.mp hflight).1)⟩
      refine Or.inr ⟨position - 1, Nat.sub_le _ _, ?_⟩
      simp only [step, hfirst]
      rw [List.getElem?_eraseIdx_of_ge (Nat.le_sub_one_of_lt hlt),
        Nat.sub_add_cancel (Nat.one_le_of_lt hlt)]
      exact hflight
    · exact Or.inl (mem_arrived_deliver hflight)
    · refine Or.inr ⟨position, Nat.le_refl _, ?_⟩
      rw [step]
      split
      next node msg _ => exact (List.getElem?_eraseIdx_of_lt hgt).trans hflight
      next => exact hflight

/-- The delivery of the foremost message brings every other one nearer. -/
theorem inFlight_deliver {position : ℕ} {peer : Node} {newBlock : NewBlockData Rest Body}
    (hflight : network.inFlight[position]? = some (peer, messageOf newBlock)) :
    newBlock ∈ ((network.step links (.deliver 0)).sentry peer).arrived ∨
      ∃ nearer < position,
        (network.step links (.deliver 0)).inFlight[nearer]? = some (peer, messageOf newBlock) := by
  cases position with
  | zero => exact Or.inl (mem_arrived_deliver hflight)
  | succ position =>
    obtain ⟨⟨node, msg⟩, hfirst⟩ : ∃ message, network.inFlight[0]? = some message :=
      ⟨_, List.getElem?_eq_getElem
        (Nat.lt_of_le_of_lt (Nat.zero_le _) (List.getElem?_eq_some_iff.mp hflight).1)⟩
    refine Or.inr ⟨position, Nat.lt_succ_self _, ?_⟩
    simp only [step, hfirst]
    exact (List.getElem?_eraseIdx_of_ge (Nat.zero_le _)).trans hflight

/-- What was sent is in flight or has arrived. -/
def SentArrives (network : Gossip Node Rest Body) : Prop :=
  ∀ node peer newBlock, (peer, messageOf newBlock) ∈ (network.sentry node).sent →
    (peer, messageOf newBlock) ∈ network.inFlight ∨ newBlock ∈ (network.sentry peer).arrived

theorem mem_arrived_step {node : Node} {newBlock : NewBlockData Rest Body}
    (hblock : newBlock ∈ (network.sentry node).arrived) (event : GossipEvent Node Rest Body) :
    newBlock ∈ ((network.step links event).sentry node).arrived := by
  obtain ⟨index, hindex⟩ := List.mem_iff_getElem?.mp hblock
  exact List.mem_of_getElem? (arrived_step hindex event)

/-- What a node has sent after a step was sent before, or is in flight now. -/
theorem mem_sent_step (links : Node → List Node) (network : Gossip Node Rest Body)
    (event : GossipEvent Node Rest Body) (node : Node)
    {message : Node × NewBlockMessage Rest Body}
    (hmessage : message ∈ ((network.step links event).sentry node).sent) :
    message ∈ (network.sentry node).sent ∨ message ∈ (network.step links event).inFlight := by
  rcases sentry_step_cases links network event node with
    heq | ⟨msg, heq⟩ | heq | ⟨peers, heq, hflight⟩
  · rw [heq] at hmessage
    exact Or.inl hmessage
  · rw [heq] at hmessage
    exact Or.inl hmessage
  · rw [heq] at hmessage
    rcases receive_cases (network.sentry node) with hsame | ⟨newBlock, -, -, hreceived⟩
    · rw [hsame] at hmessage
      exact Or.inl hmessage
    · rw [hreceived] at hmessage
      exact Or.inl hmessage
  · rw [heq] at hmessage
    rw [hflight]
    exact (List.mem_append.mp hmessage).imp_right (List.mem_append_right _)

theorem SentArrives.step (hnetwork : SentArrives network) (links : Node → List Node)
    (event : GossipEvent Node Rest Body) : SentArrives (network.step links event) := by
  intro node peer newBlock hsent
  rcases mem_sent_step links network event node hsent with hbefore | hflight
  · rcases hnetwork node peer newBlock hbefore with hflight | harrived
    · obtain ⟨position, hposition⟩ := List.mem_iff_getElem?.mp hflight
      rcases inFlight_step links hposition event with harrives | ⟨nearer, -, hnearer⟩
      · exact Or.inr harrives
      · exact Or.inl (List.mem_of_getElem? hnearer)
    · exact Or.inr (mem_arrived_step harrived event)
  · exact Or.inl hflight

theorem sentArrives_run (links : Node → List Node) (capacity : ℕ)
    (events : List (GossipEvent Node Rest Body)) :
    SentArrives (run (step links) (.start capacity) events) := by
  refine run_history (fun _ network ↦ SentArrives network) ?_ ?_ events
  · intro node peer newBlock hsent
    cases hsent
  · exact fun _ network event hnetwork ↦ hnetwork.step links event

theorem allAccount_run (links : Node → List Node) (capacity : ℕ)
    {events : List (GossipEvent Node Rest Body)} (hanswered : ∀ event ∈ events, event.isAnswered) :
    AllAccount links True (run (step links) (.start capacity) events) :=
  run_invariant (AllAccount links True)
    (fun _ event hevent hnetwork ↦ hnetwork.step event fun _ ↦ hevent)
    (fun _ ↦ ⟨[], [], accounts_start _ _ capacity⟩) (eachStep_of_forall hanswered)

end Gossip

/-! ### Fair schedules -/

/-- After some events the network goes on as scheduled: every request for the peers is answered, and
no move is put off forever. -/
structure FairGossip (links : Node → List Node) (capacity : ℕ)
    (events : List (GossipEvent Node Rest Body)) (schedule : ℕ → GossipEvent Node Rest Body) :
    Prop where
  events_answered : ∀ event ∈ events, event.isAnswered
  schedule_answered : ∀ moment, (schedule moment).isAnswered
  fair : WeaklyFair GossipEvent.isMove (Gossip.step links)
    (run (Gossip.step links) (.start capacity) events) schedule

/-- The network at a moment. -/
def gossipAt (links : Node → List Node) (capacity : ℕ)
    (events : List (GossipEvent Node Rest Body)) (schedule : ℕ → GossipEvent Node Rest Body)
    (moment : ℕ) : Gossip Node Rest Body :=
  stateAt (Gossip.step links) (run (Gossip.step links) (.start capacity) events) schedule moment

section Schedules

variable {links : Node → List Node} {capacity : ℕ} {events : List (GossipEvent Node Rest Body)}
  {schedule : ℕ → GossipEvent Node Rest Body} {node : Node} {newBlock : NewBlockData Rest Body}

/-- The events up to a moment. -/
def eventsUntil (events : List (GossipEvent Node Rest Body))
    (schedule : ℕ → GossipEvent Node Rest Body) (moment : ℕ) :
    List (GossipEvent Node Rest Body) := events ++ (List.range moment).map schedule

theorem gossipAt_eq_run (moment : ℕ) : gossipAt links capacity events schedule moment =
    run (Gossip.step links) (.start capacity) (eventsUntil events schedule moment) :=
  stateAt_run events moment

theorem FairGossip.eventsUntil_answered (hgossip : FairGossip links capacity events schedule)
    (moment : ℕ) : ∀ event ∈ eventsUntil events schedule moment, event.isAnswered := by
  intro event hevent
  rcases List.mem_append.mp hevent with hbefore | hscheduled
  · exact hgossip.events_answered event hbefore
  · obtain ⟨earlier, -, rfl⟩ := List.mem_map.mp hscheduled
    exact hgossip.schedule_answered earlier

/-- What follows a moment is fair too. -/
theorem FairGossip.rest (hgossip : FairGossip links capacity events schedule) (first : ℕ) :
    FairGossip links capacity (eventsUntil events schedule first)
      fun later ↦ schedule (first + later) where
  events_answered := hgossip.eventsUntil_answered first
  schedule_answered := fun later ↦ hgossip.schedule_answered (first + later)
  fair := by
    rw [← gossipAt_eq_run]
    exact hgossip.fair.rest first

theorem gossipAt_add (first moment : ℕ) :
    gossipAt links capacity events schedule (first + moment) =
      gossipAt links capacity (eventsUntil events schedule first)
        (fun later ↦ schedule (first + later)) moment := by
  rw [gossipAt, stateAt_add, ← gossipAt, gossipAt_eq_run, gossipAt]

/-- A block that has come to a node goes through it. -/
theorem FairGossip.goes_through (hgossip : FairGossip links capacity events schedule)
    (harrived : newBlock ∈ ((gossipAt links capacity events schedule 0).sentry node).arrived) :
    ∃ moment, Through (links node) newBlock
      ((gossipAt links capacity events schedule moment).sentry node) := by
  obtain ⟨index, hindex⟩ := List.mem_iff_getElem?.mp harrived
  have hblock : ∀ moment,
      ((gossipAt links capacity events schedule moment).sentry node).arrived[index]? =
        some newBlock := fun moment ↦ by
    induction moment with
    | zero => exact hindex
    | succ moment ih => exact Gossip.arrived_step ih _
  obtain ⟨moment, hsteps⟩ := hgossip.fair.leads_to
    (fun network ↦ (network.sentry node).stepsTo index = 0)
    (fun rank network ↦ (network.sentry node).stepsTo index = rank)
    (fun rank ↦ if rank % 2 = 0 then .receive node else .peers node true)
    (fun rank ↦ by split_ifs <;> rfl)
    (fun rank moment hrank ↦ Or.inr ⟨_, hrank ▸ Gossip.stepsTo_step_le links _ _ node index, rfl⟩)
    (fun rank moment hrank ↦ Gossip.stepsTo_helpful (hblock moment) hrank) rfl
  obtain ⟨finished, relayed, haccounts⟩ :=
    Gossip.allAccount_run links capacity (hgossip.eventsUntil_answered moment) node
  have hadvertises := (relaysInjected_run links capacity
    (eventsUntil events schedule moment)).sentry node
  rw [← gossipAt_eq_run] at haccounts hadvertises
  exact ⟨moment, through_of_stepsTo hadvertises.advertises haccounts (hblock moment) hsteps⟩

/-- A message in flight arrives. -/
theorem FairGossip.arrives (hgossip : FairGossip links capacity events schedule)
    (hflight : (node, messageOf newBlock) ∈ (gossipAt links capacity events schedule 0).inFlight) :
    ∃ moment,
      newBlock ∈ ((gossipAt links capacity events schedule moment).sentry node).arrived := by
  obtain ⟨position, hposition⟩ := List.mem_iff_getElem?.mp hflight
  exact hgossip.fair.leads_to
    (fun network ↦ newBlock ∈ (network.sentry node).arrived)
    (fun position network ↦ network.inFlight[position]? = some (node, messageOf newBlock))
    (fun _ ↦ .deliver 0) (fun _ ↦ rfl)
    (fun position moment hposition ↦ Gossip.inFlight_step links hposition _)
    (fun position moment hposition ↦ Gossip.inFlight_deliver hposition) hposition

/-- A block comes from a node to each of its peers. -/
theorem FairGossip.comes_to_peer (hgossip : FairGossip links capacity events schedule)
    (harrived : newBlock ∈ ((gossipAt links capacity events schedule 0).sentry node).arrived)
    {peer : Node} (hpeer : peer ∈ links node) :
    ∃ moment,
      newBlock ∈ ((gossipAt links capacity events schedule moment).sentry peer).arrived := by
  obtain ⟨first, hthrough⟩ := hgossip.goes_through harrived
  have hsent : Gossip.SentArrives (gossipAt links capacity events schedule first) := by
    rw [gossipAt_eq_run]
    exact Gossip.sentArrives_run links capacity _
  rcases hsent node peer newBlock (hthrough.sent peer hpeer) with hflight | hcame
  · rw [← Nat.add_zero first, gossipAt_add] at hflight
    obtain ⟨moment, hmoment⟩ := (hgossip.rest first).arrives hflight
    rw [← gossipAt_add] at hmoment
    exact ⟨first + moment, hmoment⟩
  · exact ⟨first, hcame⟩

/-- It comes to every node that can be reached. -/
theorem FairGossip.comes_to (hgossip : FairGossip links capacity events schedule)
    (harrived : newBlock ∈ ((gossipAt links capacity events schedule 0).sentry node).arrived)
    {other : Node} (hreach : Relation.ReflTransGen (fun node peer ↦ peer ∈ links node) node other) :
    ∃ moment, newBlock ∈
      ((gossipAt links capacity events schedule moment).sentry other).arrived := by
  induction hreach with
  | refl => exact ⟨0, harrived⟩
  | tail _ hpeer ih =>
    obtain ⟨first, hfirst⟩ := ih
    rw [← Nat.add_zero first, gossipAt_add] at hfirst
    obtain ⟨moment, hmoment⟩ := (hgossip.rest first).comes_to_peer hfirst hpeer
    rw [← gossipAt_add] at hmoment
    exact ⟨first + moment, hmoment⟩

end Schedules

/-- A block goes through every sentry that can be reached. Assumes: every request for the peers is
answered, and no delivery and no step of a task is put off forever; further blocks may come in at
any moment. Each sentry to which a chain of links leads from one that was given the block is given
it, advertises it as its head and sends it to all its peers. -/
theorem gossip_spreads (links : Node → List Node) (capacity : ℕ)
    (events : List (GossipEvent Node Rest Body)) (schedule : ℕ → GossipEvent Node Rest Body)
    (hgossip : FairGossip links capacity events schedule) {node other : Node}
    (hreach : Relation.ReflTransGen (fun node peer ↦ peer ∈ links node) node other)
    {newBlock : NewBlockData Rest Body}
    (harrived :
      newBlock ∈ ((run (Gossip.step links) (.start capacity) events).sentry node).arrived) :
    ∃ moment, Through (links other) newBlock
      ((gossipAt links capacity events schedule moment).sentry other) := by
  obtain ⟨first, hfirst⟩ := hgossip.comes_to harrived hreach
  rw [← Nat.add_zero first, gossipAt_add] at hfirst
  obtain ⟨moment, hmoment⟩ := (hgossip.rest first).goes_through hfirst
  rw [← gossipAt_add] at hmoment
  exact ⟨first + moment, hmoment⟩

/-- Two connected sentries: a block given to the first goes through the second. -/
theorem gossip_spreads_of_two :
    let newBlock : NewBlockData Unit Unit :=
      ⟨.repeatByte 1, ⟨⟨.repeatByte 0, 1, 12, ()⟩, ()⟩⟩
    let events : List (GossipEvent Bool Unit Unit) := [.inject false (messageOf newBlock)]
    ∃ moment, Through [false] newBlock
      ((gossipAt (fun node ↦ [!node]) 4 events everyMove moment).sentry true) := by
  intro newBlock events
  have hmoves : ∀ moment, (everyMove moment).isMove := by
    intro moment
    unfold everyMove
    split <;> rfl
  have hgossip : FairGossip (fun node ↦ [!node]) 4 events everyMove :=
    ⟨by decide, fun moment ↦ GossipEvent.isAnswered_of_isMove (hmoves moment),
      fun event hevent moment _ ↦ exists_everyMove_eq hevent moment⟩
  have harrived : newBlock ∈ ((run (Gossip.step fun node ↦ [!node]) (.start 4) events).sentry
      false).arrived := List.mem_singleton_self newBlock
  exact gossip_spreads (fun node ↦ [!node]) 4 events everyMove hgossip
    (.single (List.mem_singleton_self true)) harrived

end SentryNode.Network
