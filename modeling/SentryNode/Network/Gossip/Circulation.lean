import Mathlib.Data.Nat.Pairing
import SentryNode.Library.Progress
import SentryNode.Network.Gossip

/-!
# The copies of a block under way

A copy of a block is under way while it is in flight, waits in the channel of a sentry, or waits for
the peers of one. Relaying it ends one copy and makes one for each peer. `gossip_circulates` is the
balance for every run: what came in from outside and what was sent is under way or was relayed, and
with every request for the peers answered a sentry sends each block it relays to all its peers.

Nothing else ends a copy. Where every sentry has a peer, which it has as soon as it is connected at
all, the copies under way never get fewer than the blocks that came in. `gossip_never_ends` follows:
after a single block from outside, every weakly fair schedule sends messages without end.
-/

set_option autoImplicit false
set_option relaxedAutoImplicit false

namespace SentryNode.Network

open Library

variable {Node Rest Body : Type*}

/-! ### The blocks of one node -/

namespace Sentry

/-- The blocks still to be relayed: the one that waits for the peers, and those in the channel. -/
def pending (sentry : Sentry Node Rest Body) : List (NewBlockData Rest Body) :=
  sentry.rebroadcasting.toList ++ sentry.arrived.drop sentry.received

/-- The blocks that have been relayed, or dropped for want of an answer. -/
def finished (sentry : Sentry Node Rest Body) : List (NewBlockData Rest Body) :=
  sentry.arrived.take (sentry.received - sentry.rebroadcasting.toList.length)

end Sentry

/-- What a node has done with the blocks that arrived. All those finished were relayed when every
request for the peers was `answered`. -/
structure Accounts (connected : List Node) (answered : Prop)
    (finished relayed : List (NewBlockData Rest Body)) (sentry : Sentry Node Rest Body) : Prop where
  arrived_eq : sentry.arrived = finished ++ sentry.pending
  received_eq : sentry.received = finished.length + sentry.rebroadcasting.toList.length
  relayed_sublist : relayed.Sublist finished
  relayed_eq : answered → relayed = finished
  sent_eq : sentry.sent = relayed.flatMap fun newBlock ↦
    connected.map fun peer ↦ (peer, messageOf newBlock)

theorem accounts_start (connected : List Node) (answered : Prop) (capacity : ℕ) :
    Accounts connected answered [] [] (.start capacity : Sentry Node Rest Body) where
  arrived_eq := rfl
  received_eq := rfl
  relayed_sublist := List.Sublist.refl _
  relayed_eq := fun _ ↦ rfl
  sent_eq := rfl

namespace Accounts

variable {connected : List Node} {answered : Prop}
  {finished relayed : List (NewBlockData Rest Body)} {sentry : Sentry Node Rest Body}

theorem received_le (hsentry : Accounts connected answered finished relayed sentry) :
    sentry.received ≤ sentry.arrived.length := by
  have hlength := congrArg List.length hsentry.arrived_eq
  have hreceived := hsentry.received_eq
  simp only [Sentry.pending, List.length_append, List.length_drop] at hlength
  omega

theorem finished_eq (hsentry : Accounts connected answered finished relayed sentry) :
    sentry.finished = finished := by
  rw [Sentry.finished, hsentry.received_eq, Nat.add_sub_cancel, hsentry.arrived_eq,
    List.take_left]

theorem onNewBlock (hsentry : Accounts connected answered finished relayed sentry)
    (event : NewBlockEvent Rest Body) :
    Accounts connected answered finished relayed (sentry.onNewBlock event) where
  arrived_eq := by
    rw [Sentry.pending, arrived_onNewBlock]
    show _ = finished ++ (sentry.rebroadcasting.toList ++ List.drop sentry.received _)
    rw [List.drop_append_of_le_length hsentry.received_le, ← List.append_assoc,
      ← List.append_assoc, List.append_assoc finished, ← Sentry.pending, ← hsentry.arrived_eq]
  received_eq := hsentry.received_eq
  relayed_sublist := hsentry.relayed_sublist
  relayed_eq := hsentry.relayed_eq
  sent_eq := hsentry.sent_eq

theorem receive (hsentry : Accounts connected answered finished relayed sentry) :
    Accounts connected answered finished relayed sentry.receive := by
  rcases receive_cases sentry with heq | ⟨newBlock, hnone, hnext, heq⟩
  · rwa [heq]
  · obtain ⟨hlt, hget⟩ := List.getElem?_eq_some_iff.mp hnext
    have harrived := hsentry.arrived_eq
    have hreceived := hsentry.received_eq
    rw [Sentry.pending, hnone, Option.toList_none, List.nil_append, List.drop_eq_getElem_cons hlt,
      hget] at harrived
    rw [hnone] at hreceived
    rw [heq]
    exact {
      arrived_eq := harrived
      received_eq := congrArg (· + 1) hreceived
      relayed_sublist := hsentry.relayed_sublist
      relayed_eq := hsentry.relayed_eq
      sent_eq := hsentry.sent_eq }

/-- A node that is told its peers, or is not. -/
theorem answer (hsentry : Accounts connected answered finished relayed sentry) (told : Bool)
    (htold : answered → told) :
    ∃ finished relayed, Accounts connected answered finished relayed
      (sentry.answer (if told then some connected else none)) := by
  have harrived := hsentry.arrived_eq
  have hreceived := hsentry.received_eq
  cases hwaiting : sentry.rebroadcasting with
  | none =>
    have houtgoing : sentry.outgoing (if told then some connected else none) = [] := by
      simp only [Sentry.outgoing, hwaiting]
    rw [Sentry.pending] at harrived
    rw [Sentry.answer, houtgoing, List.append_nil, ← hwaiting]
    exact ⟨finished, relayed, hsentry⟩
  | some newBlock =>
    rw [Sentry.pending, hwaiting, Option.toList_some, ← List.append_assoc] at harrived
    rw [hwaiting, Option.toList_some] at hreceived
    by_cases hpeers : told
    · refine ⟨finished ++ [newBlock], relayed ++ [newBlock], harrived, ?_, ?_, ?_, ?_⟩
      · simpa [Sentry.answer] using hreceived
      · exact hsentry.relayed_sublist.append (List.Sublist.refl _)
      · intro hall
        rw [hsentry.relayed_eq hall]
      · simp only [Sentry.answer, if_pos hpeers, Sentry.outgoing, hwaiting, hsentry.sent_eq,
          List.flatMap_append, List.flatMap_singleton]
    · refine ⟨finished ++ [newBlock], relayed, harrived, ?_, ?_, ?_, ?_⟩
      · simpa [Sentry.answer] using hreceived
      · exact hsentry.relayed_sublist.trans (List.sublist_append_left _ _)
      · exact fun hall ↦ absurd (htold hall) hpeers
      · simp only [Sentry.answer, if_neg hpeers, Sentry.outgoing, hwaiting, hsentry.sent_eq,
          List.append_nil]

end Accounts

/-- Blocks relayed to a list of peers: each of them is sent to all. -/
theorem countP_flatMap_messages (counted : B256 → Bool) (connected : List Node)
    (relayed : List (NewBlockData Rest Body)) :
    (relayed.flatMap fun newBlock ↦ connected.map fun peer ↦ (peer, messageOf newBlock)).countP
        (fun message ↦ counted message.2.hash) =
      connected.length * relayed.countP fun newBlock ↦ counted newBlock.hash := by
  induction relayed with
  | nil => rfl
  | cons newBlock relayed ih =>
    rw [List.flatMap_cons, List.countP_append, ih, List.countP_map, List.countP_cons, Nat.mul_add,
      Nat.add_comm]
    congr 1
    by_cases hcounted : counted newBlock.hash
    · simp [Function.comp_def, messageOf, hcounted]
    · simp [Function.comp_def, messageOf, hcounted]

/-! ### The copies in the network -/

/-- The blocks of some kind among those that a node has relayed or dropped. -/
def relays (counted : B256 → Bool) (sentry : Sentry Node Rest Body) : ℕ :=
  sentry.finished.countP fun newBlock ↦ counted newBlock.hash

/-- The blocks of some kind among those that a node was given. -/
def arrivedOf (counted : B256 → Bool) (sentry : Sentry Node Rest Body) : ℕ :=
  sentry.arrived.countP fun newBlock ↦ counted newBlock.hash

/-- The messages of some kind among those that a node has sent. -/
def sentOf (counted : B256 → Bool) (sentry : Sentry Node Rest Body) : ℕ :=
  sentry.sent.countP fun message ↦ counted message.2.hash

/-- The copies of some kind that are under way: in flight, or pending at a node. -/
def copies [Fintype Node] (counted : B256 → Bool) (network : Gossip Node Rest Body) : ℕ :=
  network.inFlight.countP (fun message ↦ counted message.2.hash) +
    ∑ node, (network.sentry node).pending.countP fun newBlock ↦ counted newBlock.hash

/-- A request for the peers that is answered, or any other event. -/
def GossipEvent.isAnswered : GossipEvent Node Rest Body → Bool
  | .peers _ answered => answered
  | _ => true

/-- The balance of the blocks of every kind. What came in from outside and what was sent is under
way or was relayed. A node sends to each of its peers at most what it relays, and all of it when
every request for the peers is answered. -/
structure Circulates [Fintype Node] (links : Node → List Node) (answered : Prop)
    (hashes : List B256) (network : Gossip Node Rest Body) : Prop where
  balance : ∀ counted, copies counted network + ∑ node, relays counted (network.sentry node) =
    hashes.countP counted + ∑ node, sentOf counted (network.sentry node)
  sent_le : ∀ counted node, sentOf counted (network.sentry node) ≤
    (links node).length * relays counted (network.sentry node)
  sent_eq : answered → ∀ counted node, sentOf counted (network.sentry node) =
    (links node).length * relays counted (network.sentry node)

/-- Every node accounts for what arrived. -/
def AllAccount (links : Node → List Node) (answered : Prop) (network : Gossip Node Rest Body) :
    Prop :=
  ∀ node, ∃ finished relayed,
    Accounts (links node) answered finished relayed (network.sentry node)

/-- What arrived or is in flight was injected or sent. -/
def Balanced [Fintype Node] (hashes : List B256) (network : Gossip Node Rest Body) : Prop :=
  ∀ counted : B256 → Bool,
    network.inFlight.countP (fun message ↦ counted message.2.hash) +
        ∑ node, arrivedOf counted (network.sentry node) =
      hashes.countP counted + ∑ node, sentOf counted (network.sentry node)

/-- Every node accounts for what arrived, and the network for all of it. -/
structure Accounted [Fintype Node] (links : Node → List Node) (answered : Prop)
    (hashes : List B256) (network : Gossip Node Rest Body) : Prop where
  accounts : AllAccount links answered network
  balance : Balanced hashes network

theorem Accounted.circulates [Fintype Node] {links : Node → List Node} {answered : Prop}
    {hashes : List B256} {network : Gossip Node Rest Body}
    (hnetwork : Accounted links answered hashes network) :
    Circulates links answered hashes network where
  balance := fun counted ↦ by
    rw [← hnetwork.balance counted, copies, Nat.add_assoc, ← Finset.sum_add_distrib]
    congr 1
    refine Finset.sum_congr rfl fun node _ ↦ ?_
    obtain ⟨finished, relayed, hnode⟩ := hnetwork.accounts node
    rw [relays, hnode.finished_eq, arrivedOf, hnode.arrived_eq, List.countP_append, Nat.add_comm]
  sent_le := fun counted node ↦ by
    obtain ⟨finished, relayed, hnode⟩ := hnetwork.accounts node
    rw [relays, hnode.finished_eq, sentOf, hnode.sent_eq, countP_flatMap_messages]
    exact Nat.mul_le_mul_left _ hnode.relayed_sublist.countP_le
  sent_eq := fun hall counted node ↦ by
    obtain ⟨finished, relayed, hnode⟩ := hnetwork.accounts node
    rw [relays, hnode.finished_eq, sentOf, hnode.sent_eq, countP_flatMap_messages,
      hnode.relayed_eq hall]

theorem arrivedOf_onNewBlock (counted : B256 → Bool) (sentry : Sentry Node Rest Body)
    (msg : NewBlockMessage Rest Body) :
    arrivedOf counted (sentry.onNewBlock (.block msg)) =
      arrivedOf counted sentry + [msg.hash].countP counted := by
  rw [arrivedOf, arrived_onNewBlock, List.countP_append]
  simp [arrivedOf, blockOf, List.countP_cons]

theorem sentOf_answer (counted : B256 → Bool) (sentry : Sentry Node Rest Body)
    (peers : Option (List Node)) :
    sentOf counted (sentry.answer peers) = sentOf counted sentry +
      (sentry.outgoing peers).countP fun message ↦ counted message.2.hash :=
  List.countP_append

/-! ### Runs -/

section Accounting

variable [DecidableEq Node] {links : Node → List Node} {answered : Prop}
  {network : Gossip Node Rest Body}

/-- The node that moves accounts for its part, and the others for theirs. -/
theorem AllAccount.move (hnetwork : AllAccount links answered network) {node : Node}
    {moved : Sentry Node Rest Body}
    (hmoved : ∃ finished relayed, Accounts (links node) answered finished relayed moved) :
    AllAccount links answered (network.move node moved) := by
  intro other
  show ∃ finished relayed, Accounts (links other) answered finished relayed
    (Function.update network.sentry node moved other)
  by_cases hother : other = node
  · subst hother
    rwa [Function.update_self]
  · rw [Function.update_of_ne hother]
    exact hnetwork other

theorem AllAccount.onNewBlock (hnetwork : AllAccount links answered network) (node : Node)
    (msg : NewBlockMessage Rest Body) : AllAccount links answered
      (network.move node ((network.sentry node).onNewBlock (.block msg))) := by
  obtain ⟨finished, relayed, hnode⟩ := hnetwork node
  exact hnetwork.move ⟨finished, relayed, hnode.onNewBlock _⟩

theorem AllAccount.step (hnetwork : AllAccount links answered network)
    (event : GossipEvent Node Rest Body) (hevent : answered → event.isAnswered) :
    AllAccount links answered (network.step links event) := by
  cases event with
  | inject node msg => exact hnetwork.onNewBlock node msg
  | deliver position =>
    rw [Gossip.step]
    split
    next node msg _ => exact hnetwork.onNewBlock node msg
    next => exact hnetwork
  | receive node =>
    obtain ⟨finished, relayed, hnode⟩ := hnetwork node
    exact hnetwork.move ⟨finished, relayed, hnode.receive⟩
  | peers node told =>
    obtain ⟨finished, relayed, hnode⟩ := hnetwork node
    exact hnetwork.move (hnode.answer told hevent)

end Accounting

section Runs

variable [DecidableEq Node] [Fintype Node] {links : Node → List Node} {answered : Prop}
  {hashes : List B256} {network : Gossip Node Rest Body}

/-- What is counted over the nodes grows with the one that moves. -/
theorem sum_move_eq {node : Node} {moved : Sentry Node Rest Body}
    {weight : Sentry Node Rest Body → ℕ} {gain : ℕ}
    (hgain : weight moved = weight (network.sentry node) + gain) :
    ∑ other, weight ((network.move node moved).sentry other) =
      ∑ other, weight (network.sentry other) + gain := by
  have hsum := sum_update_add network.sentry node weight moved
  rw [hgain] at hsum
  simp only [Gossip.move]
  omega

/-- A block arrives at a node: what was in flight or came in now counts as arrived. -/
theorem balanced_onNewBlock (hnetwork : Balanced hashes network) (node : Node)
    (msg : NewBlockMessage Rest Body) {inFlight : List (Node × NewBlockMessage Rest Body)}
    {more : List B256}
    (hbalance : ∀ counted : B256 → Bool,
      inFlight.countP (fun message ↦ counted message.2.hash) + [msg.hash].countP counted =
        network.inFlight.countP (fun message ↦ counted message.2.hash) + more.countP counted) :
    Balanced (hashes ++ more)
      { network.move node ((network.sentry node).onNewBlock (.block msg)) with inFlight } := by
  intro counted
  have hbefore := hnetwork counted
  have hcounted := hbalance counted
  have harrived := sum_move_eq (arrivedOf_onNewBlock counted (network.sentry node) msg)
  have hkept : sentOf counted ((network.sentry node).onNewBlock (.block msg)) =
      sentOf counted (network.sentry node) + 0 := rfl
  have hsent := sum_move_eq hkept
  rw [List.countP_append]
  dsimp only at harrived hsent ⊢
  omega

theorem balanced_step (hnetwork : Balanced hashes network) (event : GossipEvent Node Rest Body) :
    Balanced (hashes ++ injected [event]) (network.step links event) := by
  have hnothing : hashes ++ ([] : List B256) = hashes := List.append_nil hashes
  cases event with
  | inject node msg => exact balanced_onNewBlock hnetwork node msg fun counted ↦ rfl
  | deliver position =>
    rw [Gossip.step]
    split
    next node msg hposition =>
      refine balanced_onNewBlock hnetwork node msg fun counted ↦ ?_
      obtain ⟨hlt, hget⟩ := List.getElem?_eq_some_iff.mp hposition
      have hperm := List.getElem_cons_eraseIdx_perm hlt
      rw [hget] at hperm
      rw [← hperm.countP_eq]
      simp [injected, List.countP_cons]
    next => exact hnothing.symm ▸ hnetwork
  | receive node =>
    refine hnothing.symm ▸ fun counted ↦ ?_
    have harrived : arrivedOf counted (network.sentry node).receive =
        arrivedOf counted (network.sentry node) + 0 := by
      rw [arrivedOf, arrived_receive]
      rfl
    have hsent : sentOf counted (network.sentry node).receive =
        sentOf counted (network.sentry node) + 0 := by
      obtain heq | ⟨newBlock, -, -, heq⟩ := receive_cases (network.sentry node) <;> rw [heq] <;> rfl
    rw [Gossip.step, sum_move_eq harrived, sum_move_eq hsent]
    exact hnetwork counted
  | peers node told =>
    refine hnothing.symm ▸ fun counted ↦ ?_
    have hbefore := hnetwork counted
    have hkept : arrivedOf counted
        ((network.sentry node).answer (if told then some (links node) else none)) =
        arrivedOf counted (network.sentry node) + 0 := rfl
    have harrived := sum_move_eq hkept
    have hsent := sum_move_eq (sentOf_answer counted (network.sentry node)
      (if told then some (links node) else none))
    simp only [Gossip.step, List.countP_append] at harrived hsent ⊢
    omega

theorem accounted_run (links : Node → List Node) (capacity : ℕ)
    (events : List (GossipEvent Node Rest Body)) :
    Accounted links (∀ event ∈ events, event.isAnswered) (injected events)
      (run (Gossip.step links) (.start capacity) events) := by
  suffices hall : ∀ answered : Prop, (answered → ∀ event ∈ events, event.isAnswered) →
      Accounted links answered (injected events)
        (run (Gossip.step links) (.start capacity) events) from hall _ id
  intro answered
  refine run_history (fun before network ↦ (answered → ∀ event ∈ before, event.isAnswered) →
    Accounted links answered (injected before) network) (fun _ ↦ ?_) ?_ events
  · refine ⟨fun node ↦ ⟨[], [], accounts_start _ _ capacity⟩, fun counted ↦ ?_⟩
    simp [Gossip.start, Sentry.start, Sentry.startWith, arrivedOf, Sentry.arrived, sentOf, injected]
  · intro before network event hnetwork hanswered
    have hinjected : injected (before ++ [event]) = injected before ++ injected [event] :=
      List.flatMap_append
    rw [hinjected]
    have hbefore := hnetwork fun hall other hother ↦
      hanswered hall other (List.mem_append_left _ hother)
    exact ⟨hbefore.accounts.step event fun hall ↦
        hanswered hall event (List.mem_append_right _ (List.mem_singleton_self event)),
      balanced_step hbefore.balance event⟩

/-- The balance of the copies of a block. For every connection graph, all blocks from outside, every
order of delivery and every request for the peers, answered or not. -/
theorem gossip_circulates (links : Node → List Node) (capacity : ℕ)
    (events : List (GossipEvent Node Rest Body)) :
    Circulates links (∀ event ∈ events, event.isAnswered) (injected events)
      (run (Gossip.step links) (.start capacity) events) :=
  (accounted_run links capacity events).circulates

end Runs

/-! ### Without end -/

/-- Where every node has a peer and every request is answered, no copy is lost. -/
theorem Circulates.countP_le_copies [Fintype Node] {links : Node → List Node} {answered : Prop}
    {hashes : List B256} {network : Gossip Node Rest Body}
    (hnetwork : Circulates links answered hashes network) (hlinks : ∀ node, links node ≠ [])
    (hanswered : answered) (counted : B256 → Bool) :
    hashes.countP counted ≤ copies counted network := by
  have hbalance := hnetwork.balance counted
  have hsent : ∑ node, relays counted (network.sentry node) ≤
      ∑ node, sentOf counted (network.sentry node) := by
    refine Finset.sum_le_sum fun node _ ↦ ?_
    rw [hnetwork.sent_eq hanswered counted node]
    exact Nat.le_mul_of_pos_left _ (List.length_pos_iff.mpr (hlinks node))
  omega

/-- A move of the network: everything but a block from outside and a request that fails. -/
def GossipEvent.isMove : GossipEvent Node Rest Body → Bool
  | .inject _ _ => false
  | .peers _ answered => answered
  | _ => true

theorem GossipEvent.isAnswered_of_isMove {event : GossipEvent Node Rest Body}
    (hmove : event.isMove) : event.isAnswered := by
  cases event with
  | peers node told => exact hmove
  | _ => rfl

/-- The work left at a node: two steps for a block in the channel, and one when it waits for the
peers. -/
def Sentry.work (sentry : Sentry Node Rest Body) : ℕ :=
  2 * (sentry.arrived.length - sentry.received) + sentry.rebroadcasting.toList.length

theorem Sentry.work_onNewBlock_le (sentry : Sentry Node Rest Body)
    (msg : NewBlockMessage Rest Body) :
    (sentry.onNewBlock (.block msg)).work ≤ sentry.work + 2 := by
  rw [work, work, arrived_onNewBlock, List.length_append]
  show 2 * (sentry.arrived.length + 1 - sentry.received) + sentry.rebroadcasting.toList.length ≤ _
  omega

section Endless

variable [DecidableEq Node]

namespace Gossip

theorem move_self (network : Gossip Node Rest Body) (node : Node) :
    network.move node (network.sentry node) = network := by
  rw [move, Function.update_eq_self]

variable [Fintype Node]

/-- The work left in a network, were it to send nothing more. -/
def work (network : Gossip Node Rest Body) : ℕ :=
  3 * network.inFlight.length + ∑ node, (network.sentry node).work

/-- The messages sent so far. -/
def sentCount (network : Gossip Node Rest Body) : ℕ := ∑ node, (network.sentry node).sent.length

/-- A move leaves the network as it is, does some of the work, or sends messages, each of which is
less than four steps of work. -/
theorem works (links : Node → List Node) (network : Gossip Node Rest Body)
    (event : GossipEvent Node Rest Body) (hmove : event.isMove) :
    network.step links event = network ∨
      (network.step links event).work + 4 * network.sentCount <
        network.work + 4 * (network.step links event).sentCount := by
  cases event with
  | inject node msg => cases hmove
  | deliver position =>
    simp only [step]
    split
    next node msg hposition =>
      right
      have hlt := (List.getElem?_eq_some_iff.mp hposition).1
      have hwork := sum_update_add network.sentry node Sentry.work
        ((network.sentry node).onNewBlock (.block msg))
      have hadds := (network.sentry node).work_onNewBlock_le msg
      have hsent := sum_update_add network.sentry node (fun sentry ↦ sentry.sent.length)
        ((network.sentry node).onNewBlock (.block msg))
      have hkept : ((network.sentry node).onNewBlock (.block msg)).sent =
        (network.sentry node).sent := rfl
      rw [hkept] at hsent
      simp only [work, sentCount, move, List.length_eraseIdx_of_lt hlt]
      omega
    next => exact Or.inl rfl
  | receive node =>
    simp only [step]
    rcases receive_cases (network.sentry node) with heq | ⟨newBlock, hnone, hnext, heq⟩
    · left
      rw [heq, move_self]
    · right
      have hlt := (List.getElem?_eq_some_iff.mp hnext).1
      have hwork := sum_update_add network.sentry node Sentry.work (network.sentry node).receive
      have hsent := sum_update_add network.sentry node (fun sentry ↦ sentry.sent.length)
        (network.sentry node).receive
      have hkept : (network.sentry node).receive.sent = (network.sentry node).sent := by rw [heq]
      have hless : (network.sentry node).receive.work < (network.sentry node).work := by
        rw [Sentry.work, Sentry.work, arrived_receive, heq, hnone]
        simp only [Option.toList_some, Option.toList_none, List.length_singleton, List.length_nil]
        omega
      rw [hkept] at hsent
      simp only [work, sentCount, move]
      omega
  | peers node told =>
    obtain rfl : told = true := hmove
    simp only [step, if_true]
    cases hwaiting : (network.sentry node).rebroadcasting with
    | none =>
      left
      have hnothing : (network.sentry node).outgoing (some (links node)) = [] := by
        simp only [Sentry.outgoing, hwaiting]
      have hsame : (network.sentry node).answer (some (links node)) = network.sentry node := by
        rw [Sentry.answer, hnothing, List.append_nil, ← hwaiting]
      rw [hsame, move_self, hnothing, List.append_nil]
    | some newBlock =>
      right
      have hwork := sum_update_add network.sentry node Sentry.work
        ((network.sentry node).answer (some (links node)))
      have hsent := sum_update_add network.sentry node (fun sentry ↦ sentry.sent.length)
        ((network.sentry node).answer (some (links node)))
      have hless : ((network.sentry node).answer (some (links node))).work + 1 =
          (network.sentry node).work := by
        rw [Sentry.work, Sentry.work, hwaiting]
        rfl
      simp only [Sentry.answer, List.length_append] at hsent
      simp only [work, sentCount, move, List.length_append]
      simp only [Sentry.answer] at hwork hless ⊢
      omega

/-- Where no move changes anything, no copy is under way. -/
theorem copies_eq_zero_of_quiet {links : Node → List Node} {network : Gossip Node Rest Body}
    (hquiet : Quiet GossipEvent.isMove (step links) network) (counted : B256 → Bool) :
    copies counted network = 0 := by
  have hflight : network.inFlight = [] := by
    cases hflight : network.inFlight with
    | nil => rfl
    | cons message messages =>
      have hlength := congrArg (fun moved ↦ moved.inFlight.length) (hquiet (.deliver 0) rfl)
      simp only [step, hflight, List.getElem?_cons_zero, List.eraseIdx_cons_zero,
        List.length_cons] at hlength
      omega
  have hpending : ∀ node, (network.sentry node).pending = [] := by
    intro node
    have hnone : (network.sentry node).rebroadcasting = none := by
      have hsentry := congrArg (fun moved ↦ (moved.sentry node).rebroadcasting)
        (hquiet (.peers node true) rfl)
      simpa [step, move, Sentry.answer] using hsentry.symm
    have hall : (network.sentry node).arrived[(network.sentry node).received]? = none := by
      by_contra hsome
      obtain ⟨newBlock, hnext⟩ := Option.ne_none_iff_exists'.mp hsome
      have hsentry := congrArg (fun moved ↦ (moved.sentry node).received)
        (hquiet (.receive node) rfl)
      simp [step, move, receive_of_next hnone hnext] at hsentry
    rw [Sentry.pending, hnone, Option.toList_none, List.nil_append]
    exact List.drop_eq_nil_of_le (List.getElem?_eq_none_iff.mp hall)
  simp [copies, hflight, hpending]

end Gossip

/-- Gossip never ends. Assumes: every node has a peer, and every request for the peers is answered;
a block has come in from outside. Under every weakly fair schedule of deliveries, receptions and
answers, without any further block, the messages sent exceed every bound. -/
theorem gossip_never_ends [Fintype Node] (links : Node → List Node)
    (hlinks : ∀ node, links node ≠ []) (capacity : ℕ) (events : List (GossipEvent Node Rest Body))
    (hanswered : ∀ event ∈ events, event.isAnswered) (hinjected : injected events ≠ [])
    (schedule : ℕ → GossipEvent Node Rest Body) (hmoves : ∀ moment, (schedule moment).isMove)
    (hfair : WeaklyFair GossipEvent.isMove (Gossip.step links)
      (run (Gossip.step links) (.start capacity) events) schedule) (bound : ℕ) :
    ∃ moment, bound ≤ (stateAt (Gossip.step links)
      (run (Gossip.step links) (.start capacity) events) schedule moment).sentCount := by
  refine hfair.exists_le_count hmoves (Gossip.works links) (fun moment hquiet ↦ ?_) bound
  rw [stateAt_run] at hquiet
  have hall : ∀ event ∈ events ++ (List.range moment).map schedule, event.isAnswered := by
    intro event hevent
    rcases List.mem_append.mp hevent with hbefore | hmove
    · exact hanswered event hbefore
    · obtain ⟨earlier, -, rfl⟩ := List.mem_map.mp hmove
      exact GossipEvent.isAnswered_of_isMove (hmoves earlier)
  have hcopies := (accounted_run links capacity
    (events ++ (List.range moment).map schedule)).circulates.countP_le_copies hlinks hall
      fun _ ↦ true
  rw [Gossip.copies_eq_zero_of_quiet hquiet, injected, List.flatMap_append, List.countP_append,
    ← injected, List.countP_true] at hcopies
  exact hinjected (List.length_eq_zero_iff.mp (by omega))

end Endless

/-- A schedule for two sentries, which takes every move again and again. -/
def everyMove (moment : ℕ) : GossipEvent Bool Unit Unit :=
  match moment % 3 with
  | 0 => .deliver (moment / 3).unpair.1
  | 1 => .receive ((moment / 3) % 2 = 0)
  | _ => .peers ((moment / 3) % 2 = 0) true

theorem exists_everyMove_eq {event : GossipEvent Bool Unit Unit} (hmove : event.isMove)
    (moment : ℕ) : ∃ later ≥ moment, everyMove later = event := by
  have hmod : ∀ count rest : ℕ, rest < 3 → (3 * count + rest) % 3 = rest ∧
      (3 * count + rest) / 3 = count := by omega
  have hparity : ∀ node : Bool, ∃ count ≥ moment, decide (count % 2 = 0) = node := by
    rintro (_ | _)
    · exact ⟨2 * moment + 1, by omega, by simp⟩
    · exact ⟨2 * moment, by omega, by simp⟩
  cases event with
  | inject node msg => cases hmove
  | deliver position =>
    obtain ⟨hrest, hcount⟩ := hmod (Nat.pair position moment) 0 (by omega)
    have hle := Nat.right_le_pair position moment
    refine ⟨3 * Nat.pair position moment + 0, by omega, ?_⟩
    simp only [everyMove, hrest, hcount, Nat.unpair_pair]
  | receive node =>
    obtain ⟨count, hle, hnode⟩ := hparity node
    obtain ⟨hrest, hcount⟩ := hmod count 1 (by omega)
    refine ⟨3 * count + 1, by omega, ?_⟩
    simp only [everyMove, hrest, hcount, hnode]
  | peers node told =>
    obtain rfl : told = true := hmove
    obtain ⟨count, hle, hnode⟩ := hparity node
    obtain ⟨hrest, hcount⟩ := hmod count 2 (by omega)
    refine ⟨3 * count + 2, by omega, ?_⟩
    simp only [everyMove, hrest, hcount, hnode]

/-- Two connected sentries and one block from outside: a million messages. -/
theorem gossip_never_ends_of_two :
    let events : List (GossipEvent Bool Unit Unit) :=
      [.inject false ⟨.repeatByte 1, ⟨⟨.repeatByte 0, 1, 12, ()⟩, ()⟩⟩]
    let links : Bool → List Bool := fun node ↦ [!node]
    ∃ moment, 1000000 ≤ (stateAt (Gossip.step links)
      (run (Gossip.step links) (.start 4) events) everyMove moment).sentCount := by
  intro events links
  have hmoves : ∀ moment, (everyMove moment).isMove := by
    intro moment
    unfold everyMove
    split <;> rfl
  exact gossip_never_ends links (fun _ ↦ List.cons_ne_nil _ _) 4 events (by decide) (by decide)
    everyMove hmoves (fun event hevent moment _ ↦ exists_everyMove_eq hevent moment) 1000000

end SentryNode.Network
