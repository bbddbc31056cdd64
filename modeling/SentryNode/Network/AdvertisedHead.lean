import SentryNode.BlockCache.Latest
import SentryNode.BlockCache.Restore
import SentryNode.Network.Rebroadcast

/-!
# The advertised head

On start-up a sentry node restores its cache and advertises the highest block in it, or, without a
block, an estimate from the clock. While it runs, it advertises each block in the order of arrival,
whatever its number. `followsHighest_iff` states for which arrivals the two agree: the head is the
highest block received, and never goes back, in every run exactly when no block arrives that is
lower than the head of the start or than a block before it.
-/

set_option autoImplicit false
set_option relaxedAutoImplicit false

namespace SentryNode.Network

open Library

variable {Peer : Type*} {Rest Body : Type}

/-! ### The head of the start -/

/-- The head that the network is set up with: the latest cached block, or the genesis block under
the number that post-merge blocks of twelve seconds would have reached by now. -/
def startHead (genesisHash : B256) (now : UInt64) (cache : BlockCache Rest Body) : Head :=
  match cache.latest with
  | some (hash, header) =>
    { number := header.number
      hash
      difficulty := 0
      totalDifficulty := 58750000000000000000000
      timestamp := header.timestamp }
  | none =>
    { number := (now - 1681338455) / 12 + 17034870
      hash := genesisHash
      difficulty := 0
      totalDifficulty := 58750000000000000000000
      timestamp := now }

/-! ### Runs of one node -/

/-- What happens at a sentry node: an announcement arrives, the task takes the next block, or it is
told the connected peers. -/
inductive SentryEvent (Peer Rest Body : Type*)
  | newBlock (event : NewBlockEvent Rest Body)
  | receive
  | answer (peers : Option (List Peer))

def Sentry.step (sentry : Sentry Peer Rest Body) : SentryEvent Peer Rest Body →
    Sentry Peer Rest Body
  | .newBlock event => sentry.onNewBlock event
  | .receive => sentry.receive
  | .answer peers => sentry.answer peers

/-- The blocks that arrive in a run. -/
def arrivals (events : List (SentryEvent Peer Rest Body)) : List (NewBlockData Rest Body) :=
  events.flatMap fun
    | .newBlock event => blockOf event
    | _ => []

/-- The number of a new block. -/
def numberOf (newBlock : NewBlockData Rest Body) : UInt64 := newBlock.block.header.number

/-- A new block as it is cached. -/
def cachedOf (newBlock : NewBlockData Rest Body) : CachedBlock Rest Body where
  hash := newBlock.hash
  header := newBlock.block.header
  body := newBlock.block.body

/-- The advertised head follows the highest block. Once the task has taken every block from the
channel, the head has the highest number received; it never goes back, from the head of the start
on; and as long as the cache has room for every height received, it has the number of the latest
cached block. -/
structure FollowsHighest (capacity : ℕ) (start : Head) (sentry : Sentry Peer Rest Body) : Prop where
  highest : sentry.Processed → sentry.arrived ≠ [] →
    ∃ head, sentry.statuses.getLast? = some head ∧
      IsHighest (sentry.arrived.map numberOf) head.number
  never_decreases : (start :: sentry.statuses).Pairwise fun earlier later ↦
    earlier.number.toNat ≤ later.number.toNat
  latest : sentry.Processed → sentry.arrived ≠ [] →
    (sentry.arrived.map numberOf).dedup.length ≤ BlockCache.effectiveCapacity capacity →
    ∃ head hash header, sentry.statuses.getLast? = some head ∧
      sentry.blockImport.cache.latest = some (hash, header) ∧ header.number = head.number

/-! ### What a run leaves behind -/

/-- After a run: the blocks that arrived, and the cache with these blocks inserted. -/
structure RunsFrom (restored : BlockCache Rest Body) (events : List (SentryEvent Peer Rest Body))
    (sentry : Sentry Peer Rest Body) : Prop where
  advertises : Advertises sentry
  arrived_eq : sentry.arrived = arrivals events
  cache_eq : sentry.blockImport.cache = restored.insertAll (sentry.arrived.map cachedOf)

theorem arrivals_concat (events : List (SentryEvent Peer Rest Body))
    (event : SentryEvent Peer Rest Body) :
    arrivals (events ++ [event]) = arrivals events ++ arrivals [event] :=
  List.flatMap_append

theorem cache_onNewBlock {restored : BlockCache Rest Body} {sentry : Sentry Peer Rest Body}
    (hcache : sentry.blockImport.cache = restored.insertAll (sentry.arrived.map cachedOf))
    (event : NewBlockEvent Rest Body) : (sentry.onNewBlock event).blockImport.cache =
      restored.insertAll ((sentry.onNewBlock event).arrived.map cachedOf) := by
  rw [arrived_onNewBlock]
  cases event with
  | block msg =>
    rw [blockOf, List.map_append, List.map_singleton, insertAll_append, ← hcache]
    rfl
  | hashes hashes =>
    rw [blockOf, List.append_nil]
    exact hcache

theorem runsFrom_run (restored : BlockCache Rest Body)
    (events : List (SentryEvent Peer Rest Body)) :
    RunsFrom restored events (run Sentry.step (.startWith restored) events) := by
  refine run_history (RunsFrom restored) ⟨advertises_startWith restored, rfl, rfl⟩ ?_ events
  intro before sentry event hruns
  obtain ⟨hadvertises, harrived, hcache⟩ := hruns
  cases event with
  | newBlock event =>
    refine ⟨hadvertises.onNewBlock event, ?_, cache_onNewBlock hcache event⟩
    rw [arrivals_concat, ← harrived, arrivals, List.flatMap_singleton]
    exact arrived_onNewBlock sentry event
  | receive =>
    refine ⟨hadvertises.receive, ?_, ?_⟩
    · rw [arrivals_concat, ← harrived]
      exact (arrived_receive sentry).trans (List.append_nil _).symm
    · rw [Sentry.step, arrived_receive, blockImport_receive, hcache]
  | answer peers =>
    refine ⟨hadvertises.answer peers, ?_, hcache⟩
    rw [arrivals_concat, ← harrived]
    exact (List.append_nil _).symm

/-! ### The latest block of the cache -/

/-- The block inserted last is the latest one, if no number in the cache and none inserted before it
is higher. -/
theorem latest_insertAll_concat {cache : BlockCache Rest Body}
    {blocks : List (CachedBlock Rest Body)} {last : CachedBlock Rest Body}
    (hcache : ∀ number ∈ cache.hashByNumber.keys, number.toNat ≤ last.header.number.toNat)
    (hblocks : ∀ block ∈ blocks, block.header.number.toNat ≤ last.header.number.toNat) :
    (cache.insertAll (blocks ++ [last])).latest = some (last.hash, last.header) := by
  have hkeys : ∀ number ∈ (cache.insertAll (blocks ++ [last])).hashByNumber.keys,
      number.toNat ≤ last.header.number.toNat := by
    intro number hnumber
    rw [insertAll_eq] at hnumber
    rcases LruCache.mem_keys_of_mem_pushAll hnumber with hbefore | hpushed
    · exact hcache number hbefore
    · rw [List.map_map] at hpushed
      obtain ⟨block, hblock, rfl⟩ := List.mem_map.mp hpushed
      rcases List.mem_append.mp hblock with hearlier | hlast
      · exact hblocks block hearlier
      · rw [List.mem_singleton.mp hlast]
        exact Nat.le_refl _
  rw [insertAll_append] at hkeys ⊢
  exact latest_eq_some_iff.mpr ⟨last.header.number, ⟨LruCache.mem_keys_push_self _ _ _, hkeys⟩,
    LruCache.peek_push_self _ _ _, LruCache.peek_push_self _ _ _⟩

/-- A cache that was only inserted into knows a header for every hash by number. -/
theorem keys_insertAll_new (capacity : ℕ) (blocks : List (CachedBlock Rest Body)) :
    ((BlockCache.new capacity).insertAll blocks).headersByNumber.keys =
      ((BlockCache.new capacity).insertAll blocks).hashByNumber.keys := by
  rw [insertAll_eq]
  dsimp only
  rw [LruCache.keys_pushAll (LruCache.window_keys _).symm,
    LruCache.keys_pushAll (LruCache.window_keys _).symm, List.map_map, List.map_map]
  rfl

/-- No number in the restored cache is higher than the head of the start. -/
theorem le_startHead {codec : BlockRlp Rest Body} {cacheFile : Option (List UInt8)} {capacity : ℕ}
    (genesisHash : B256) (now : UInt64) {number : UInt64}
    (hnumber : number ∈ (BlockCache.restored codec cacheFile capacity).hashByNumber.keys) :
    number.toNat ≤
      (startHead genesisHash now (.restored codec cacheFile capacity)).number.toNat := by
  obtain ⟨blocks, hrestored⟩ := exists_restored_eq codec cacheFile capacity
  rw [hrestored] at hnumber ⊢
  obtain ⟨highest, hhighest⟩ := exists_isHighest (List.ne_nil_of_mem hnumber)
  obtain ⟨hash, hhash⟩ := LruCache.mem_keys_iff.mp hhighest.1
  have hmem := hhighest.1
  rw [← keys_insertAll_new] at hmem
  obtain ⟨header, hheader⟩ := LruCache.mem_keys_iff.mp hmem
  have hlatest := latest_eq_some_iff.mpr ⟨highest, hhighest, hhash, hheader⟩
  rw [insertAll_new] at hheader
  obtain ⟨-, -, hsame⟩ := (coherentWith_after capacity _).header_at hheader
  rw [startHead, hlatest]
  show number.toNat ≤ header.number.toNat
  rw [hsame]
  exact hhighest.2 number hnumber

/-! ### Arrivals in ascending order -/

/-- No block arrives that is lower than the head of the start or than a block before it. -/
def ArrivesAscending (start : Head) (blocks : List (NewBlockData Rest Body)) : Prop :=
  (start.number :: blocks.map numberOf).Pairwise fun earlier later ↦ earlier.toNat ≤ later.toNat

theorem ArrivesAscending.sublist {start : Head} {blocks arrived : List (NewBlockData Rest Body)}
    (hascending : ArrivesAscending start blocks) (harrived : arrived.Sublist blocks) :
    ArrivesAscending start arrived :=
  List.Pairwise.sublist ((harrived.map numberOf).cons_cons start.number) hascending

theorem ArrivesAscending.le_last {start : Head} {blocks : List (NewBlockData Rest Body)}
    {last : NewBlockData Rest Body} (hascending : ArrivesAscending start (blocks ++ [last])) :
    start.number.toNat ≤ (numberOf last).toNat ∧
      ∀ block ∈ blocks, (numberOf block).toNat ≤ (numberOf last).toNat := by
  rw [ArrivesAscending, List.map_append, ← List.cons_append] at hascending
  obtain ⟨-, -, hlast⟩ := List.pairwise_append.mp hascending
  have hle : ∀ number ∈ start.number :: blocks.map numberOf,
      number.toNat ≤ (numberOf last).toNat := fun number hnumber ↦
    hlast number hnumber _ (List.mem_singleton_self _)
  exact ⟨hle _ List.mem_cons_self, fun block hblock ↦
    hle _ (List.mem_cons_of_mem _ (List.mem_map_of_mem hblock))⟩

/-- The last head advertised is that of the last arrival, once everything is taken. -/
theorem Advertises.getLast_statuses {sentry : Sentry Peer Rest Body}
    (hadvertises : Advertises sentry) (hprocessed : sentry.Processed) :
    sentry.statuses.getLast? = sentry.arrived.getLast?.map headOf := by
  rw [hadvertises.statuses_eq, hprocessed, List.getLast?_map]

/-- The heads of a run are those of the start and of the blocks taken. -/
theorem Advertises.pairwise_iff {start : Head} {sentry : Sentry Peer Rest Body}
    (hadvertises : Advertises sentry) :
    ((start :: sentry.statuses).Pairwise fun earlier later ↦
      earlier.number.toNat ≤ later.number.toNat) ↔ ArrivesAscending start sentry.taken := by
  rw [hadvertises.statuses_eq, ArrivesAscending, List.pairwise_cons, List.pairwise_cons,
    List.pairwise_map, List.pairwise_map, List.forall_mem_map, List.forall_mem_map]
  rfl

theorem RunsFrom.followsHighest {restored : BlockCache Rest Body} {start : Head}
    (hrestored : ∀ number ∈ restored.hashByNumber.keys, number.toNat ≤ start.number.toNat)
    {events : List (SentryEvent Peer Rest Body)} {sentry : Sentry Peer Rest Body}
    (hruns : RunsFrom restored events sentry)
    (hascending : ArrivesAscending start sentry.arrived) (capacity : ℕ) :
    FollowsHighest capacity start sentry := by
  have hlast : sentry.Processed → sentry.arrived ≠ [] → ∃ blocks last,
      sentry.arrived = blocks ++ [last] ∧ sentry.statuses.getLast? = some (headOf last) ∧
        start.number.toNat ≤ (numberOf last).toNat ∧
        ∀ block ∈ blocks, (numberOf block).toNat ≤ (numberOf last).toNat := by
    intro hprocessed harrived
    obtain ⟨blocks, last, heq⟩ := (List.eq_nil_or_concat' sentry.arrived).resolve_left harrived
    refine ⟨blocks, last, heq, ?_, (heq ▸ hascending).le_last⟩
    rw [hruns.advertises.getLast_statuses hprocessed, heq, List.getLast?_concat, Option.map_some]
  refine ⟨fun hprocessed harrived ↦ ?_, ?_, fun hprocessed harrived _ ↦ ?_⟩
  · obtain ⟨blocks, last, heq, hhead, -, hblocks⟩ := hlast hprocessed harrived
    refine ⟨headOf last, hhead, ?_, ?_⟩
    · rw [heq]
      exact List.mem_map_of_mem (List.mem_append_right _ (List.mem_singleton_self last))
    · intro number hnumber
      rw [heq] at hnumber
      obtain ⟨block, hblock, rfl⟩ := List.mem_map.mp hnumber
      rcases List.mem_append.mp hblock with hearlier | hsame
      · exact hblocks block hearlier
      · rw [List.mem_singleton.mp hsame]
        exact Nat.le_refl _
  · exact hruns.advertises.pairwise_iff.mpr (hascending.sublist (List.take_sublist _ _))
  · obtain ⟨blocks, last, heq, hhead, hstart, hblocks⟩ := hlast hprocessed harrived
    refine ⟨headOf last, last.hash, last.block.header, hhead, ?_, rfl⟩
    rw [hruns.cache_eq, heq, List.map_append, List.map_singleton]
    refine latest_insertAll_concat (fun number hnumber ↦ ?_) ?_
    · exact Nat.le_trans (hrestored number hnumber) hstart
    · rw [List.forall_mem_map]
      exact hblocks

/-! ### A task that keeps up -/

/-- Each block is taken, and the request for the peers fails, before the next one arrives. -/
def promptly (blocks : List (NewBlockData Rest Body)) : List (SentryEvent Peer Rest Body) :=
  blocks.flatMap fun newBlock ↦
    [.newBlock (.block (messageOf newBlock)), .receive, .answer none]

theorem arrivals_promptly (blocks : List (NewBlockData Rest Body)) :
    arrivals (promptly blocks : List (SentryEvent Peer Rest Body)) = blocks := by
  induction blocks with
  | nil => rfl
  | cons newBlock blocks ih =>
    show newBlock :: arrivals (promptly blocks : List (SentryEvent Peer Rest Body)) = _
    rw [ih]

/-- The task waits for a block, and there is none. -/
def Sentry.Idle (sentry : Sentry Peer Rest Body) : Prop :=
  sentry.rebroadcasting = none ∧ sentry.received = sentry.arrived.length

theorem Sentry.Idle.processed {sentry : Sentry Peer Rest Body} (hidle : sentry.Idle) :
    sentry.Processed := by
  rw [Sentry.Processed, Sentry.taken, hidle.2, List.take_length]

/-- A block that arrives at an idle task and is taken at once leaves the task idle. -/
theorem Sentry.Idle.prompt {sentry : Sentry Peer Rest Body} (hidle : sentry.Idle)
    (newBlock : NewBlockData Rest Body) :
    ((sentry.onNewBlock (.block (messageOf newBlock))).receive.answer none).Idle := by
  obtain ⟨hnone, hreceived⟩ := hidle
  have harrived : (sentry.onNewBlock (.block (messageOf newBlock))).arrived =
      sentry.arrived ++ [newBlock] := arrived_onNewBlock sentry _
  have hfree : (sentry.onNewBlock (.block (messageOf newBlock))).rebroadcasting = none := hnone
  have hnext : (sentry.onNewBlock (.block (messageOf newBlock))).arrived[
      (sentry.onNewBlock (.block (messageOf newBlock))).received]? = some newBlock := by
    rw [harrived]
    show (sentry.arrived ++ [newBlock])[sentry.received]? = _
    rw [hreceived, List.getElem?_concat_length]
  rw [receive_of_next hfree hnext]
  refine ⟨rfl, ?_⟩
  show sentry.received + 1 = (sentry.onNewBlock (.block (messageOf newBlock))).arrived.length
  rw [harrived, hreceived, List.length_append, List.length_singleton]

theorem Sentry.Idle.promptly {sentry : Sentry Peer Rest Body} (hidle : sentry.Idle)
    (blocks : List (NewBlockData Rest Body)) :
    (run Sentry.step sentry (promptly blocks)).Idle := by
  induction blocks generalizing sentry with
  | nil => exact hidle
  | cons newBlock blocks ih => exact ih (hidle.prompt newBlock)

/-- When the advertised head follows the highest block. Whatever the cache file holds, and with any
clock: it does in every run with these arrivals or the first of them exactly when none of them is
lower than the head of the start or than one before it. -/
theorem followsHighest_iff (codec : BlockRlp Rest Body) (cacheFile : Option (List UInt8))
    (capacity : ℕ) (genesisHash : B256) (now : UInt64) (blocks : List (NewBlockData Rest Body)) :
    let restored := BlockCache.restored codec cacheFile capacity
    let start := startHead genesisHash now restored
    (∀ events : List (SentryEvent Peer Rest Body), arrivals events <+: blocks →
        FollowsHighest capacity start (run Sentry.step (.startWith restored) events)) ↔
      ArrivesAscending start blocks := by
  intro restored start
  constructor
  · intro hfollows
    have harrivals : arrivals (promptly blocks : List (SentryEvent Peer Rest Body)) = blocks :=
      arrivals_promptly blocks
    have hruns := runsFrom_run restored (promptly blocks : List (SentryEvent Peer Rest Body))
    have hidle : (Sentry.startWith restored : Sentry Peer Rest Body).Idle := ⟨rfl, rfl⟩
    have hprefix : arrivals (promptly blocks : List (SentryEvent Peer Rest Body)) <+: blocks :=
      ⟨[], by rw [List.append_nil, harrivals]⟩
    have hheads := (hfollows (promptly blocks) hprefix).never_decreases
    rwa [hruns.advertises.pairwise_iff, (hidle.promptly blocks).processed, hruns.arrived_eq,
      harrivals] at hheads
  · intro hascending events hevents
    have hruns := runsFrom_run restored events
    refine hruns.followsHighest (fun number hnumber ↦ le_startHead genesisHash now hnumber) ?_ _
    rw [hruns.arrived_eq]
    exact hascending.sublist hevents.sublist

/-- Block 4 is restored, and then block 5 and block 3 arrive, which a slower peer announced late:
the task has processed both, the head goes back to 3, and a restart would advertise 5. -/
theorem head_goes_back :
    let restored := BlockCache.restored fixedRlp
      (some (fileBytes fixedRlp [⟨.repeatByte 4, ⟨.repeatByte 3, 4, 48, ()⟩, 4⟩])) 3
    let start := startHead (.repeatByte 0) 1700000000 restored
    let sentry : Sentry Unit Unit UInt8 := run Sentry.step (.startWith restored)
      [.newBlock (.block ⟨.repeatByte 5, ⟨⟨.repeatByte 4, 5, 60, ()⟩, 5⟩⟩),
        .newBlock (.block ⟨.repeatByte 3, ⟨⟨.repeatByte 2, 3, 36, ()⟩, 3⟩⟩),
        .receive, .answer (some [()]), .receive, .answer (some [()])]
    sentry.Processed ∧ (start :: sentry.statuses).map Head.number = [4, 5, 3] ∧
      sentry.blockImport.cache.latest.map (·.2.number) = some 5 ∧
      ¬ FollowsHighest 3 start sentry := by
  intro restored start sentry
  have hnumbers : (start :: sentry.statuses).map Head.number = [4, 5, 3] := by decide +kernel
  refine ⟨rfl, hnumbers, by decide +kernel, fun hfollows ↦ ?_⟩
  have hheads : ((start :: sentry.statuses).map Head.number).Pairwise fun earlier later ↦
      earlier.toNat ≤ later.toNat := List.pairwise_map.mpr hfollows.never_decreases
  rw [hnumbers] at hheads
  exact absurd hheads (by decide)

end SentryNode.Network
