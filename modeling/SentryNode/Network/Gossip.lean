import Mathlib.Algebra.BigOperators.Ring.Finset
import Mathlib.Algebra.Order.BigOperators.Group.Finset
import Mathlib.Data.Fintype.Basic
import SentryNode.Network.Rebroadcast

/-!
# Gossip between sentries

Sentries connected to each other relay every new block to all their peers, and a peer that is a
sentry relays it again. A network of sentries is their states and the messages in flight, which are
delivered in any order; every node has its list of connected peers.

The import does not look whether a block is in the cache, and the task does not know who sent it, so
a sentry relays a block as often as it receives it: two connected sentries keep echoing a block
(`sentries_echo`). `gossip_bounded` bounds what is sent by what was received; where no
sentry receives a hash twice, each sends it at most once to each peer, and the messages are at most
one for each injected hash and each link.
-/

set_option autoImplicit false
set_option relaxedAutoImplicit false

namespace SentryNode.Network

open Library

variable {Node Rest Body : Type*}

/-! ### What one node relays -/

/-- How often a node was given a block with a hash. -/
def receptions (sentry : Sentry Node Rest Body) (hash : B256) : ℕ :=
  sentry.arrived.countP fun newBlock ↦ newBlock.hash = hash

/-- A node relays to its peers, and only hashes from outside. -/
structure RelaysHashes (connected : List Node) (hashes : List B256)
    (sentry : Sentry Node Rest Body) : Prop where
  advertises : Advertises sentry
  relays : Relays connected sentry
  arrived_mem : ∀ newBlock ∈ sentry.arrived, newBlock.hash ∈ hashes

theorem relaysHashes_start (connected : List Node) (hashes : List B256) (capacity : ℕ) :
    RelaysHashes connected hashes (.start capacity : Sentry Node Rest Body) where
  advertises := advertises_start capacity
  relays := relays_start connected capacity
  arrived_mem := List.forall_mem_nil _

namespace RelaysHashes

variable {connected : List Node} {hashes : List B256} {sentry : Sentry Node Rest Body}

theorem mono (hsentry : RelaysHashes connected hashes sentry) {more : List B256}
    (hmore : hashes ⊆ more) : RelaysHashes connected more sentry where
  advertises := hsentry.advertises
  relays := hsentry.relays
  arrived_mem := fun newBlock hnewBlock ↦ hmore (hsentry.arrived_mem newBlock hnewBlock)

theorem onNewBlock (hsentry : RelaysHashes connected hashes sentry)
    {msg : NewBlockMessage Rest Body} (hmsg : msg.hash ∈ hashes) :
    RelaysHashes connected hashes (sentry.onNewBlock (.block msg)) where
  advertises := hsentry.advertises.onNewBlock _
  relays := hsentry.relays.onNewBlock hsentry.advertises _
  arrived_mem := by
    rw [arrived_onNewBlock]
    intro newBlock hnewBlock
    rcases List.mem_append.mp hnewBlock with hold | hnew
    · exact hsentry.arrived_mem newBlock hold
    · rw [List.mem_singleton.mp hnew]
      exact hmsg

theorem receive (hsentry : RelaysHashes connected hashes sentry) :
    RelaysHashes connected hashes sentry.receive where
  advertises := hsentry.advertises.receive
  relays := hsentry.relays.receive
  arrived_mem := by
    rw [arrived_receive]
    exact hsentry.arrived_mem

theorem answer (hsentry : RelaysHashes connected hashes sentry) (answered : Bool) :
    RelaysHashes connected hashes (sentry.answer (if answered then some connected else none)) where
  advertises := hsentry.advertises.answer _
  relays := hsentry.relays.answer fun peers hpeers ↦ by
    split_ifs at hpeers
    exact (Option.some.inj hpeers).symm
  arrived_mem := hsentry.arrived_mem

theorem outgoing_mem (hsentry : RelaysHashes connected hashes sentry) (peers : Option (List Node)) :
    ∀ message ∈ sentry.outgoing peers, message.2.hash ∈ hashes := by
  intro message hmessage
  rcases outgoing_cases sentry peers with hnothing | ⟨newBlock, answered, hwaiting, -, houtgoing⟩
  · rw [hnothing] at hmessage
    exact absurd hmessage List.not_mem_nil
  · rw [houtgoing] at hmessage
    obtain ⟨peer, -, rfl⟩ := List.mem_map.mp hmessage
    exact hsentry.arrived_mem newBlock (hsentry.relays.mem_arrived hwaiting)

/-- A node sends at most one message for each reception and each peer. -/
theorem length_sent_le (hsentry : RelaysHashes connected hashes sentry) :
    sentry.sent.length ≤ sentry.arrived.length * connected.length := by
  obtain ⟨relayed, harrived, hsent⟩ := hsentry.relays.exists_relayed
  rw [hsent, List.length_flatMap]
  simp only [List.length_map, List.map_const', List.sum_replicate_nat]
  exact Nat.mul_le_mul_right _ harrived.length_le

/-- Without repetitions a node receives at most the hashes from outside. -/
theorem length_arrived_le (hsentry : RelaysHashes connected hashes sentry)
    (honce : ∀ hash, receptions sentry hash ≤ 1) :
    sentry.arrived.length ≤ hashes.dedup.length := by
  have hnodup : (sentry.arrived.map NewBlockData.hash).Nodup := by
    refine List.nodup_iff_count_le_one.mpr fun hash ↦ ?_
    rw [List.count_eq_countP, List.countP_map]
    simpa [receptions, Function.comp_def, beq_eq_decide] using honce hash
  rw [← List.length_map NewBlockData.hash]
  refine (hnodup.subperm fun hash hhash ↦ List.mem_dedup.mpr ?_).length_le
  obtain ⟨newBlock, hnewBlock, rfl⟩ := List.mem_map.mp hhash
  exact hsentry.arrived_mem newBlock hnewBlock

end RelaysHashes

/-! ### The network -/

variable [DecidableEq Node]

/-- The sentries, and the messages in flight with the node each is sent to. -/
structure Gossip (Node Rest Body : Type*) where
  sentry : Node → Sentry Node Rest Body
  inFlight : List (Node × NewBlockMessage Rest Body)

/-- What happens in a network: a block comes in from outside, a message in flight is delivered, or
the task of a node takes the next block or is told its peers, when the request is `answered`. -/
inductive GossipEvent (Node Rest Body : Type*)
  | inject (node : Node) (msg : NewBlockMessage Rest Body)
  | deliver (position : ℕ)
  | receive (node : Node)
  | peers (node : Node) (answered : Bool)

namespace Gossip

/-- One node moves. -/
def move (network : Gossip Node Rest Body) (node : Node) (sentry : Sentry Node Rest Body) :
    Gossip Node Rest Body := { network with sentry := Function.update network.sentry node sentry }

def step (links : Node → List Node) (network : Gossip Node Rest Body) :
    GossipEvent Node Rest Body → Gossip Node Rest Body
  | .inject node msg => network.move node ((network.sentry node).onNewBlock (.block msg))
  | .deliver position =>
    match network.inFlight[position]? with
    | some (node, msg) =>
      { network.move node ((network.sentry node).onNewBlock (.block msg)) with
        inFlight := network.inFlight.eraseIdx position }
    | none => network
  | .receive node => network.move node (network.sentry node).receive
  | .peers node answered =>
    let peers := if answered then some (links node) else none
    { network.move node ((network.sentry node).answer peers) with
      inFlight := network.inFlight ++ (network.sentry node).outgoing peers }

/-- Every cache is empty, and nothing is in flight. -/
def start (capacity : ℕ) : Gossip Node Rest Body where
  sentry := fun _ ↦ .start capacity
  inFlight := []

end Gossip

/-- The hashes of the blocks that come in from outside. -/
def injected (events : List (GossipEvent Node Rest Body)) : List B256 :=
  events.flatMap fun
    | .inject _ msg => [msg.hash]
    | _ => []

/-- How often a node has sent a hash to a peer. -/
def sentTo (sentry : Sentry Node Rest Body) (peer : Node) (hash : B256) : ℕ :=
  sentry.sent.countP fun message ↦ message.1 = peer ∧ message.2.hash = hash

/-- No node was given two blocks with one hash. -/
def NoRepeats (network : Gossip Node Rest Body) : Prop :=
  ∀ node hash, receptions (network.sentry node) hash ≤ 1

/-- Between any two events: every node relays to its peers, and no hash comes from nowhere. -/
structure RelaysInjected (links : Node → List Node) (hashes : List B256)
    (network : Gossip Node Rest Body) : Prop where
  sentry : ∀ node, RelaysHashes (links node) hashes (network.sentry node)
  inFlight : ∀ message ∈ network.inFlight, message.2.hash ∈ hashes

namespace RelaysInjected

variable {links : Node → List Node} {hashes : List B256} {network : Gossip Node Rest Body}

/-- The node that moves keeps its own part, and the others keep theirs. -/
theorem move (hnetwork : RelaysInjected links hashes network) {node : Node}
    {sentry : Sentry Node Rest Body} (hsentry : RelaysHashes (links node) hashes sentry)
    (other : Node) :
    RelaysHashes (links other) hashes ((network.move node sentry).sentry other) := by
  show RelaysHashes (links other) hashes (Function.update network.sentry node sentry other)
  by_cases hother : other = node
  · subst hother
    rwa [Function.update_self]
  · rw [Function.update_of_ne hother]
    exact hnetwork.sentry other

theorem step (hnetwork : RelaysInjected links hashes network)
    (event : GossipEvent Node Rest Body) :
    RelaysInjected links (hashes ++ injected [event]) (network.step links event) := by
  have hkept : RelaysInjected links (hashes ++ injected [event]) network :=
    ⟨fun node ↦ (hnetwork.sentry node).mono (List.subset_append_left _ _),
      fun message hmessage ↦ List.mem_append_left _ (hnetwork.inFlight message hmessage)⟩
  cases event with
  | inject node msg =>
    have hmsg : msg.hash ∈ hashes ++ injected [.inject node msg] :=
      List.mem_append_right _ (List.mem_singleton_self _)
    exact ⟨hkept.move ((hkept.sentry node).onNewBlock hmsg), hkept.inFlight⟩
  | deliver position =>
    rw [Gossip.step]
    split
    next node msg hposition =>
      have hmessage := hkept.inFlight _ (List.mem_of_getElem? hposition)
      refine ⟨hkept.move ((hkept.sentry node).onNewBlock hmessage), fun message hother ↦ ?_⟩
      exact hkept.inFlight message (List.mem_of_mem_eraseIdx hother)
    next => exact hkept
  | receive node => exact ⟨hkept.move (hkept.sentry node).receive, hkept.inFlight⟩
  | peers node answered =>
    refine ⟨hkept.move ((hkept.sentry node).answer answered), fun message hmessage ↦ ?_⟩
    rcases List.mem_append.mp hmessage with hold | hnew
    · exact hkept.inFlight message hold
    · exact (hkept.sentry node).outgoing_mem _ message hnew

end RelaysInjected

theorem relaysInjected_run (links : Node → List Node) (capacity : ℕ)
    (events : List (GossipEvent Node Rest Body)) :
    RelaysInjected links (injected events)
      (run (Gossip.step links) (.start capacity) events) := by
  refine run_history (fun before network ↦ RelaysInjected links (injected before) network)
    ⟨fun node ↦ relaysHashes_start (links node) _ capacity, List.forall_mem_nil _⟩ ?_ events
  intro before network event hnetwork
  have hinjected : injected (before ++ [event]) = injected before ++ injected [event] :=
    List.flatMap_append
  rw [hinjected]
  exact hnetwork.step event

/-! ### Counting what is sent -/

/-- Blocks relayed to a list of peers: a hash goes to a peer once for each block that has it. -/
theorem countP_relayed (connected : List Node) (relayed : List (NewBlockData Rest Body))
    (peer : Node) (hash : B256) :
    (relayed.flatMap fun newBlock ↦ connected.map fun peer ↦ (peer, messageOf newBlock)).countP
        (fun message ↦ message.1 = peer ∧ message.2.hash = hash) =
      relayed.countP (·.hash = hash) * connected.count peer := by
  induction relayed with
  | nil => simp
  | cons newBlock relayed ih =>
    rw [List.flatMap_cons, List.countP_append, ih, List.countP_map, List.countP_cons, Nat.add_mul,
      Nat.add_comm]
    congr 1
    by_cases hhash : newBlock.hash = hash
    · simp [Function.comp_def, messageOf, hhash, List.count_eq_countP, beq_eq_decide]
    · simp [Function.comp_def, messageOf, hhash]

/-- A node sends a hash to a peer at most as often as it received it, and to its peers only. -/
theorem RelaysHashes.sentTo_le {connected : List Node} {hashes : List B256}
    {sentry : Sentry Node Rest Body} (hsentry : RelaysHashes connected hashes sentry) (peer : Node)
    (hash : B256) : sentTo sentry peer hash ≤ receptions sentry hash * connected.count peer := by
  obtain ⟨relayed, harrived, hsent⟩ := hsentry.relays.exists_relayed
  rw [sentTo, hsent, countP_relayed]
  exact Nat.mul_le_mul_right _ harrived.countP_le

/-- What the gossip of a run amounts to. A node sends a hash to a peer at most as often as it
received it, and nothing to others; all messages are at most one for each reception and each link of
the receiver. When no node receives a hash twice, each sends it at most once to each peer, and the
messages are at most one for each hash from outside and each link. -/
structure BoundedGossip [Fintype Node] (links : Node → List Node) (hashes : List B256)
    (network : Gossip Node Rest Body) : Prop where
  sent_le : ∀ node peer hash,
    sentTo (network.sentry node) peer hash ≤ receptions (network.sentry node) hash
  only_peers : ∀ node peer, peer ∉ links node →
    ∀ hash, sentTo (network.sentry node) peer hash = 0
  total : ∑ node, (network.sentry node).sent.length ≤
    ∑ node, (network.sentry node).arrived.length * (links node).length
  once : NoRepeats network → ∀ node peer hash, sentTo (network.sentry node) peer hash ≤ 1
  total_once : NoRepeats network → ∑ node, (network.sentry node).sent.length ≤
    hashes.dedup.length * ∑ node, (links node).length

theorem RelaysInjected.boundedGossip [Fintype Node] {links : Node → List Node}
    (hlinks : ∀ node, (links node).Nodup) {hashes : List B256} {network : Gossip Node Rest Body}
    (hnetwork : RelaysInjected links hashes network) : BoundedGossip links hashes network := by
  have hsent : ∀ node peer hash,
      sentTo (network.sentry node) peer hash ≤ receptions (network.sentry node) hash := by
    intro node peer hash
    have hpeer : (links node).count peer ≤ 1 := List.nodup_iff_count_le_one.mp (hlinks node) peer
    refine ((hnetwork.sentry node).sentTo_le peer hash).trans ?_
    exact (Nat.mul_le_mul_left _ hpeer).trans_eq (Nat.mul_one _)
  refine ⟨hsent, ?_, ?_, ?_, ?_⟩
  · intro node peer hpeer hash
    have hle := (hnetwork.sentry node).sentTo_le peer hash
    rw [List.count_eq_zero_of_not_mem hpeer, Nat.mul_zero] at hle
    exact Nat.le_zero.mp hle
  · exact Finset.sum_le_sum fun node _ ↦ (hnetwork.sentry node).length_sent_le
  · intro honce node peer hash
    exact (hsent node peer hash).trans (honce node hash)
  · intro honce
    rw [Finset.mul_sum]
    refine Finset.sum_le_sum fun node _ ↦ (hnetwork.sentry node).length_sent_le.trans ?_
    exact Nat.mul_le_mul_right _ ((hnetwork.sentry node).length_arrived_le (honce node))

/-! ### Every order of delivery -/

/-- Gossip is bounded by what the nodes receive. Assumes: no node lists a peer twice. For every
connection graph, all blocks from outside and every order of delivery. -/
theorem gossip_bounded [Fintype Node] (links : Node → List Node)
    (hlinks : ∀ node, (links node).Nodup) (capacity : ℕ)
    (events : List (GossipEvent Node Rest Body)) :
    BoundedGossip links (injected events)
      (run (Gossip.step links) (.start capacity) events) :=
  (relaysInjected_run links capacity events).boundedGossip hlinks

/-- Two connected sentries, up to the moment at which the second has received the block. -/
theorem gossip_bounded_of_two :
    let events : List (GossipEvent Bool Unit Unit) :=
      [.inject false ⟨.repeatByte 1, ⟨⟨.repeatByte 0, 1, 12, ()⟩, ()⟩⟩, .receive false,
        .peers false true, .deliver 0]
    BoundedGossip (fun node ↦ [!node]) (injected events)
      (run (Gossip.step fun node ↦ [!node]) (.start 4) events) :=
  gossip_bounded (fun node ↦ [!node]) (fun _ ↦ List.nodup_singleton _) 4 _

/-- Two connected sentries and one block from outside: it comes back to the first of them, which
sends it to the second again. -/
theorem sentries_echo :
    let events : List (GossipEvent Bool Unit Unit) :=
      [.inject false ⟨.repeatByte 1, ⟨⟨.repeatByte 0, 1, 12, ()⟩, ()⟩⟩,
        .receive false, .peers false true, .deliver 0, .receive true, .peers true true, .deliver 0,
        .receive false, .peers false true]
    let network := run (Gossip.step fun node ↦ [!node]) (.start 4) events
    injected events = [.repeatByte 1] ∧ sentTo (network.sentry false) true (.repeatByte 1) = 2 ∧
      (network.sentry false).sent.length + (network.sentry true).sent.length = 3 :=
  ⟨rfl, by decide, rfl⟩

end SentryNode.Network
