import SentryNode.BlockImport
import SentryNode.Library.Run

/-!
# Rebroadcasting new blocks

A sentry node as its peers see it: the block import, which caches every announced block and puts it
on a channel, and the task at the other end of the channel. The task takes one block at a time,
advertises it as the head of the network status, asks for the connected peers and sends the block to
each of them. Other blocks can arrive while it waits for the peers; they stay in the channel.

Whatever the order of arrivals and steps of the task, the heads advertised are those of the blocks
taken so far (`Advertises`), and what was sent is what was taken, to the connected peers
(`Relays`).
-/

set_option autoImplicit false
set_option relaxedAutoImplicit false

namespace SentryNode.Network

variable {Peer Rest Body : Type*}

/-- The head of the chain in the network status. -/
structure Head where
  number : UInt64
  hash : B256
  difficulty : ℕ
  totalDifficulty : ℕ
  timestamp : UInt64
deriving DecidableEq

/-- A sentry node. The channel holds what the block import sent and the task has not `received` yet;
`rebroadcasting` is the block for which the task waits for the connected peers. The last two fields
are what has been passed to `update_status` and to `send_eth_message`. -/
structure Sentry (Peer Rest Body : Type*) where
  blockImport : CachingBlockImport Rest Body
  received : ℕ
  rebroadcasting : Option (NewBlockData Rest Body)
  statuses : List Head
  sent : List (Peer × NewBlockMessage Rest Body)

/-- The head that a new block is advertised as. -/
def headOf (newBlock : NewBlockData Rest Body) : Head where
  number := newBlock.block.header.number
  hash := newBlock.hash
  difficulty := 0
  totalDifficulty := 58750000000000000000000
  timestamp := newBlock.block.header.timestamp

/-- The message that relays a new block. -/
def messageOf (newBlock : NewBlockData Rest Body) : NewBlockMessage Rest Body where
  hash := newBlock.hash
  block := newBlock.block

namespace Sentry

/-- A sentry node that starts with a cache. -/
def startWith (cache : BlockCache Rest Body) : Sentry Peer Rest Body where
  blockImport := { cache, rebroadcastTx := [] }
  received := 0
  rebroadcasting := none
  statuses := []
  sent := []

/-- A sentry node with an empty cache. -/
def start (capacity : ℕ) : Sentry Peer Rest Body := startWith (.new capacity)

/-- The block import is given an announcement. -/
def onNewBlock (sentry : Sentry Peer Rest Body) (event : NewBlockEvent Rest Body) :
    Sentry Peer Rest Body := { sentry with blockImport := sentry.blockImport.onNewBlock event }

/-- The task takes the next block from the channel and updates the network status; it waits when the
channel is empty. -/
def receive (sentry : Sentry Peer Rest Body) : Sentry Peer Rest Body :=
  match sentry.rebroadcasting, sentry.blockImport.rebroadcastTx[sentry.received]? with
  | none, some newBlock =>
    { sentry with
      received := sentry.received + 1
      rebroadcasting := some newBlock
      statuses := sentry.statuses ++ [headOf newBlock] }
  | _, _ => sentry

/-- What the task sends when it is told the connected peers; nothing when it is told an error. -/
def outgoing (sentry : Sentry Peer Rest Body) (peers : Option (List Peer)) :
    List (Peer × NewBlockMessage Rest Body) :=
  match sentry.rebroadcasting, peers with
  | some newBlock, some peers => peers.map fun peer ↦ (peer, messageOf newBlock)
  | _, _ => []

/-- The task is told the connected peers, or an error. -/
def answer (sentry : Sentry Peer Rest Body) (peers : Option (List Peer)) :
    Sentry Peer Rest Body :=
  { sentry with rebroadcasting := none, sent := sentry.sent ++ sentry.outgoing peers }

/-- The blocks that the block import was given. -/
def arrived (sentry : Sentry Peer Rest Body) : List (NewBlockData Rest Body) :=
  sentry.blockImport.rebroadcastTx

/-- The blocks that the task has taken from the channel. -/
def taken (sentry : Sentry Peer Rest Body) : List (NewBlockData Rest Body) :=
  sentry.arrived.take sentry.received

/-- Every block that arrived has been taken from the channel. -/
def Processed (sentry : Sentry Peer Rest Body) : Prop := sentry.taken = sentry.arrived

end Sentry

/-- The block of an announcement. -/
def blockOf : NewBlockEvent Rest Body → List (NewBlockData Rest Body)
  | .block msg => [{ hash := msg.hash, block := msg.block }]
  | .hashes _ => []

theorem arrived_onNewBlock (sentry : Sentry Peer Rest Body) (event : NewBlockEvent Rest Body) :
    (sentry.onNewBlock event).arrived = sentry.arrived ++ blockOf event := by
  cases event with
  | block msg => rfl
  | hashes hashes => exact (List.append_nil _).symm

/-- The task takes the next block or waits. -/
theorem receive_cases (sentry : Sentry Peer Rest Body) :
    sentry.receive = sentry ∨ ∃ newBlock, sentry.rebroadcasting = none ∧
      sentry.arrived[sentry.received]? = some newBlock ∧
      sentry.receive = { sentry with
        received := sentry.received + 1
        rebroadcasting := some newBlock
        statuses := sentry.statuses ++ [headOf newBlock] } := by
  unfold Sentry.receive
  split
  next newBlock hnone hnext => exact Or.inr ⟨newBlock, hnone, hnext, rfl⟩
  next => exact Or.inl rfl

theorem blockImport_receive (sentry : Sentry Peer Rest Body) :
    sentry.receive.blockImport = sentry.blockImport := by
  rcases receive_cases sentry with heq | ⟨newBlock, -, -, heq⟩ <;> rw [heq]

theorem arrived_receive (sentry : Sentry Peer Rest Body) :
    sentry.receive.arrived = sentry.arrived :=
  congrArg CachingBlockImport.rebroadcastTx (blockImport_receive sentry)

/-- A task that is not waiting for the peers takes the next block. -/
theorem receive_of_next {sentry : Sentry Peer Rest Body} {newBlock : NewBlockData Rest Body}
    (hnone : sentry.rebroadcasting = none)
    (hnext : sentry.arrived[sentry.received]? = some newBlock) :
    sentry.receive = { sentry with
      received := sentry.received + 1
      rebroadcasting := some newBlock
      statuses := sentry.statuses ++ [headOf newBlock] } := by
  unfold Sentry.arrived at hnext
  rw [Sentry.receive, hnone, hnext]

/-- What is sent is the block that waits for the peers, or nothing. -/
theorem outgoing_cases (sentry : Sentry Peer Rest Body) (peers : Option (List Peer)) :
    sentry.outgoing peers = [] ∨ ∃ newBlock connected, sentry.rebroadcasting = some newBlock ∧
      peers = some connected ∧
      sentry.outgoing peers = connected.map fun peer ↦ (peer, messageOf newBlock) := by
  unfold Sentry.outgoing
  split
  next newBlock connected hwaiting => exact Or.inr ⟨newBlock, connected, hwaiting, rfl, rfl⟩
  next => exact Or.inl rfl

theorem take_succ_received {sentry : Sentry Peer Rest Body} {newBlock : NewBlockData Rest Body}
    (hnext : sentry.arrived[sentry.received]? = some newBlock) :
    sentry.arrived.take (sentry.received + 1) = sentry.taken ++ [newBlock] := by
  rw [List.take_add_one, hnext, Option.toList_some, Sentry.taken]

/-! ### What is advertised -/

/-- The heads advertised are those of the blocks taken from the channel. -/
structure Advertises (sentry : Sentry Peer Rest Body) : Prop where
  received_le : sentry.received ≤ sentry.arrived.length
  statuses_eq : sentry.statuses = sentry.taken.map headOf

theorem advertises_startWith (cache : BlockCache Rest Body) :
    Advertises (Sentry.startWith cache : Sentry Peer Rest Body) where
  received_le := Nat.le_refl 0
  statuses_eq := rfl

theorem advertises_start (capacity : ℕ) :
    Advertises (Sentry.start capacity : Sentry Peer Rest Body) := advertises_startWith _

theorem Advertises.taken_onNewBlock {sentry : Sentry Peer Rest Body}
    (hadvertises : Advertises sentry) (event : NewBlockEvent Rest Body) :
    (sentry.onNewBlock event).taken = sentry.taken := by
  rw [Sentry.taken, arrived_onNewBlock]
  exact List.take_append_of_le_length hadvertises.received_le

theorem Advertises.onNewBlock {sentry : Sentry Peer Rest Body} (hadvertises : Advertises sentry)
    (event : NewBlockEvent Rest Body) : Advertises (sentry.onNewBlock event) where
  received_le := by
    rw [arrived_onNewBlock, List.length_append]
    exact Nat.le_trans hadvertises.received_le (Nat.le_add_right _ _)
  statuses_eq := by
    rw [hadvertises.taken_onNewBlock]
    exact hadvertises.statuses_eq

theorem Advertises.receive {sentry : Sentry Peer Rest Body} (hadvertises : Advertises sentry) :
    Advertises sentry.receive := by
  rcases receive_cases sentry with heq | ⟨newBlock, -, hnext, heq⟩
  · rwa [heq]
  · rw [heq]
    refine ⟨(List.getElem?_eq_some_iff.mp hnext).1, ?_⟩
    show sentry.statuses ++ [headOf newBlock] =
      (sentry.arrived.take (sentry.received + 1)).map headOf
    rw [take_succ_received hnext, List.map_append, hadvertises.statuses_eq]
    rfl

theorem Advertises.answer {sentry : Sentry Peer Rest Body} (hadvertises : Advertises sentry)
    (peers : Option (List Peer)) : Advertises (sentry.answer peers) where
  received_le := hadvertises.received_le
  statuses_eq := hadvertises.statuses_eq

/-! ### What is relayed -/

/-- Some of the blocks taken, in order, were relayed to the connected peers, and one of them may be
waiting for the peers. -/
def Relays (connected : List Peer) (sentry : Sentry Peer Rest Body) : Prop :=
  ∃ relayed, (relayed ++ sentry.rebroadcasting.toList).Sublist sentry.taken ∧
    sentry.sent = relayed.flatMap fun newBlock ↦
      connected.map fun peer ↦ (peer, messageOf newBlock)

/-- What was sent, without the block that waits. -/
theorem Relays.exists_relayed {connected : List Peer} {sentry : Sentry Peer Rest Body}
    (hrelays : Relays connected sentry) :
    ∃ relayed : List (NewBlockData Rest Body), relayed.Sublist sentry.arrived ∧
      sentry.sent = relayed.flatMap fun newBlock ↦
        connected.map fun peer ↦ (peer, messageOf newBlock) := by
  obtain ⟨relayed, hsublist, hsent⟩ := hrelays
  have htaken : relayed.Sublist sentry.taken := (List.sublist_append_left _ _).trans hsublist
  exact ⟨relayed, htaken.trans (List.take_sublist _ _), hsent⟩

/-- The block that waits for the peers is one of those that arrived. -/
theorem Relays.mem_arrived {connected : List Peer} {sentry : Sentry Peer Rest Body}
    (hrelays : Relays connected sentry) {newBlock : NewBlockData Rest Body}
    (hwaiting : sentry.rebroadcasting = some newBlock) : newBlock ∈ sentry.arrived := by
  obtain ⟨relayed, hsublist, -⟩ := hrelays
  rw [hwaiting, Option.toList_some] at hsublist
  exact List.mem_of_mem_take (hsublist.subset (List.mem_append_right _ List.mem_cons_self))

theorem relays_start (connected : List Peer) (capacity : ℕ) :
    Relays connected (Sentry.start capacity : Sentry Peer Rest Body) :=
  ⟨[], List.Sublist.refl _, rfl⟩

theorem Relays.onNewBlock {connected : List Peer} {sentry : Sentry Peer Rest Body}
    (hrelays : Relays connected sentry) (hadvertises : Advertises sentry)
    (event : NewBlockEvent Rest Body) : Relays connected (sentry.onNewBlock event) := by
  unfold Relays
  rw [hadvertises.taken_onNewBlock]
  exact hrelays

theorem Relays.receive {connected : List Peer} {sentry : Sentry Peer Rest Body}
    (hrelays : Relays connected sentry) : Relays connected sentry.receive := by
  rcases receive_cases sentry with heq | ⟨newBlock, hnone, hnext, heq⟩
  · rwa [heq]
  · rw [heq]
    obtain ⟨relayed, hsublist, hsent⟩ := hrelays
    rw [hnone, Option.toList_none, List.append_nil] at hsublist
    refine ⟨relayed, ?_, hsent⟩
    show (relayed ++ [newBlock]).Sublist (sentry.arrived.take (sentry.received + 1))
    rw [take_succ_received hnext]
    exact hsublist.append (List.Sublist.refl _)

theorem Relays.answer {connected : List Peer} {sentry : Sentry Peer Rest Body}
    (hrelays : Relays connected sentry) {peers : Option (List Peer)}
    (hpeers : ∀ answered, peers = some answered → answered = connected) :
    Relays connected (sentry.answer peers) := by
  obtain ⟨relayed, hsublist, hsent⟩ := hrelays
  unfold Sentry.answer
  rcases outgoing_cases sentry peers with hnothing | ⟨newBlock, answered, hwaiting, rfl, houtgoing⟩
  · rw [hnothing, List.append_nil]
    refine ⟨relayed, ?_, hsent⟩
    exact (List.append_nil relayed).symm ▸ (List.sublist_append_left _ _).trans hsublist
  · rw [houtgoing, hpeers answered rfl]
    rw [hwaiting] at hsublist
    refine ⟨relayed ++ [newBlock], ?_, ?_⟩
    · exact (List.append_nil _).symm ▸ hsublist
    · show sentry.sent ++ _ = _
      rw [List.flatMap_append, List.flatMap_singleton, hsent]

end SentryNode.Network
