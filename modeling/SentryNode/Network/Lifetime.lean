import SentryNode.EthProxy.Task.Members

/-!
# The cache over restarts

A node that is shut down writes its cache to a file, and its next start loads it, under whatever
configuration it is started with. It may also be killed, before the save or in the middle of it, and
a start may find a file that it cannot open. `Lifetime.step` takes the steps of the running request
handler and of the block import, the save, and the restart; a run is any list of them.

`lifetime_keeps` states what lasts through all of it. What a session holds, serves and advertises
came in in this session or in an earlier one, and what a restart loads are the first of the blocks
that one cache had: the one of the last save.
-/

set_option autoImplicit false
set_option relaxedAutoImplicit false

namespace SentryNode.Network

open Library EthProxy

variable {Rest Body : Type}

/-! ### Sessions -/

/-- A node with its cache file: whether this session has saved its cache, the number of blocks it is
configured to cache, the cached block it advertised as its head, and its running tasks. -/
structure Lifetime (Rest Body : Type) where
  cacheFile : Option (List UInt8)
  saved : Bool
  blockCacheSize : ℕ
  head : Option (B256 × Header Rest)
  task : TaskState Rest Body

/-- What can happen next: a step of the tasks; the save of a shutdown, of which `length` bytes are
written; or the end of the session, with or without a save, and the next start. -/
inductive LifetimeEvent (Rest Body : Type)
  | task (event : TaskEvent Rest Body)
  | save (length : ℕ)
  | restart (blockCacheSize : ℕ) (readable : Bool)

namespace Lifetime

/-- A start. The cache is restored from the file, if there is one and it can be opened. -/
def start (codec : BlockRlp Rest Body) (cacheFile : Option (List UInt8)) (blockCacheSize : ℕ)
    (readable : Bool) : Lifetime Rest Body :=
  let blockCache : BlockCache Rest Body :=
    if readable then ((BlockCache.new blockCacheSize).loadFromFile codec cacheFile).2
    else .new blockCacheSize
  { cacheFile
    saved := false
    blockCacheSize
    head := blockCache.latest
    task := .initial { cache := blockCache, rebroadcastTx := [] } }

/-- The cache of the session. -/
def blockCache (node : Lifetime Rest Body) : BlockCache Rest Body := node.task.blockImport.cache

/-- A session saves its cache once, when it is shut down. -/
def step (hashSlow : Header Rest → B256) (codec : BlockRlp Rest Body)
    (node : Lifetime Rest Body) : LifetimeEvent Rest Body → Lifetime Rest Body
  | .task event => { node with task := node.task.step hashSlow event }
  | .save length =>
    if node.saved then node
    else
      { node with
        cacheFile := some ((node.blockCache.saveToFile codec).take length)
        saved := true }
  | .restart blockCacheSize readable => start codec node.cacheFile blockCacheSize readable

/-- What an event brings in. -/
def brings (node : Lifetime Rest Body) : LifetimeEvent Rest Body → Sources Rest Body
  | .task event => node.task.brings event
  | _ => { blocks := ∅, headers := ∅, bodies := ∅ }

/-- The event writes the file. -/
def writes (node : Lifetime Rest Body) : LifetimeEvent Rest Body → Bool
  | .save _ => !node.saved
  | _ => false

end Lifetime

/-! ### What lasts -/

/-- The file is a part of one with members only. -/
def FileWithin (codec : BlockRlp Rest Body) (collection : Collection Rest Body)
    (file : List UInt8) : Prop :=
  ∃ blocks length, file = (fileBytes codec blocks).take length ∧
    ∀ block ∈ blocks, collection.HasBlock block.hash block.header block.body

namespace Lifetime

/-- The cache, the replies, the head and the file are made of what came in. -/
structure Keeps (hashSlow : Header Rest → B256) (codec : BlockRlp Rest Body)
    (sources : Sources Rest Body) (node : Lifetime Rest Body) : Prop where
  task : node.task.Keeps hashSlow sources node.blockCacheSize
  head : ∀ member ∈ node.head, member ∈ (sources.collection hashSlow).headers
  file : ∀ file ∈ node.cacheFile, FileWithin codec (sources.collection hashSlow) file

section Keeps

variable {hashSlow : Header Rest → B256} {codec : BlockRlp Rest Body} {sources : Sources Rest Body}

/-- A file that is made of members is loaded as members. -/
theorem partOf_start (hcodec : codec.Inverts) (hself : codec.SelfDelimiting)
    {collection : Collection Rest Body} {cacheFile : Option (List UInt8)}
    (hfile : ∀ file ∈ cacheFile, FileWithin codec collection file) (blockCacheSize : ℕ)
    (readable : Bool) :
    PartOf collection blockCacheSize
      (start codec cacheFile blockCacheSize readable).blockCache := by
  cases readable with
  | false => exact .new collection blockCacheSize
  | true =>
    cases cacheFile with
    | none => exact .new collection blockCacheSize
    | some file =>
      obtain ⟨blocks, length, rfl, hblocks⟩ := hfile file rfl
      obtain ⟨loaded, hloaded, hload⟩ :=
        exists_prefix_loadFromFile hcodec hself (.new blockCacheSize) blocks length
      have hcache : (start codec (some ((fileBytes codec blocks).take length)) blockCacheSize
          true).blockCache = (BlockCache.new blockCacheSize).insertAll loaded := hload
      rw [hcache]
      exact (PartOf.new collection blockCacheSize).insertAll
        fun block hblock ↦ hblocks block (hloaded.subset hblock)

theorem keeps_start (hcodec : codec.Inverts) (hself : codec.SelfDelimiting)
    {cacheFile : Option (List UInt8)}
    (hfile : ∀ file ∈ cacheFile, FileWithin codec (sources.collection hashSlow) file)
    (blockCacheSize : ℕ) (readable : Bool) :
    (start codec cacheFile blockCacheSize readable).Keeps hashSlow codec sources := by
  have hcache := partOf_start hcodec hself hfile blockCacheSize readable
  refine ⟨⟨hcache, fun _ hserved ↦ (nomatch hserved), List.forall_mem_nil _⟩, ?_, hfile⟩
  rintro ⟨hash, header⟩ hhead
  exact hcache.latest hhead

theorem Keeps.step (hcodec : codec.Inverts) (hself : codec.SelfDelimiting)
    {node : Lifetime Rest Body} (hnode : node.Keeps hashSlow codec sources)
    {event : LifetimeEvent Rest Body} (hevent : (node.brings event).Within sources) :
    (node.step hashSlow codec event).Keeps hashSlow codec sources := by
  cases event with
  | task event => exact ⟨hnode.task.step hevent, hnode.head, hnode.file⟩
  | save length =>
    simp only [Lifetime.step]
    split_ifs
    · exact hnode
    · refine ⟨hnode.task, hnode.head, ?_⟩
      rintro _ ⟨⟩
      exact ⟨_, length, rfl, fun block hblock ↦ hnode.task.cache.drained hblock⟩
  | restart blockCacheSize readable =>
    exact keeps_start hcodec hself hnode.file blockCacheSize readable

theorem Keeps.run (hcodec : codec.Inverts) (hself : codec.SelfDelimiting)
    {first : Lifetime Rest Body} (hfirst : first.Keeps hashSlow codec sources)
    {events : List (LifetimeEvent Rest Body)}
    (hbrought : (Sources.collected brings (Lifetime.step hashSlow codec) first events).Within
      sources) :
    (run (Lifetime.step hashSlow codec) first events).Keeps hashSlow codec sources := by
  induction events generalizing first with
  | nil => exact hfirst
  | cons event events ih =>
    obtain ⟨hbrings, hrest⟩ := Sources.within_of_collected_cons hbrought
    exact ih (hfirst.step hcodec hself hbrings) hrest

end Keeps

/-! ### The last save -/

section LastSave

variable (hashSlow : Header Rest → B256) (codec : BlockRlp Rest Body)
  (first : Lifetime Rest Body)

/-- The last time that the file was written is the save after `before`, and `length` bytes were. -/
def LastSave (before events : List (LifetimeEvent Rest Body)) (length : ℕ) : Prop :=
  ∃ after, events = before ++ [.save length] ++ after ∧
    (run (Lifetime.step hashSlow codec) first before).saved = false ∧
    EachStep (fun node event ↦ node.writes event = false) (Lifetime.step hashSlow codec)
      (run (Lifetime.step hashSlow codec) first (before ++ [.save length])) after

/-- The file is what the last save wrote, and there is none before the first save. -/
def FileOfLastSave (events : List (LifetimeEvent Rest Body)) (node : Lifetime Rest Body) : Prop :=
  ∀ file ∈ node.cacheFile, ∃ before length, LastSave hashSlow codec first before events length ∧
    file = ((run (Lifetime.step hashSlow codec) first before).blockCache.saveToFile codec).take
      length

variable {hashSlow codec first}

/-- What does not write the file leaves the last save the last. -/
theorem LastSave.concat {before events : List (LifetimeEvent Rest Body)} {length : ℕ}
    (hlast : LastSave hashSlow codec first before events length)
    {event : LifetimeEvent Rest Body}
    (hevent : (run (Lifetime.step hashSlow codec) first events).writes event = false) :
    LastSave hashSlow codec first before (events ++ [event]) length := by
  obtain ⟨after, rfl, hsaved, hafter⟩ := hlast
  rw [run_append] at hevent
  exact ⟨after ++ [event], List.append_assoc _ _ _, hsaved,
    eachStep_concat_iff.mpr ⟨hafter, hevent⟩⟩

/-- The file of a state that comes after one with the same file. -/
theorem FileOfLastSave.concat {events : List (LifetimeEvent Rest Body)}
    (hfile : FileOfLastSave hashSlow codec first events
      (run (Lifetime.step hashSlow codec) first events))
    {event : LifetimeEvent Rest Body}
    (hevent : (run (Lifetime.step hashSlow codec) first events).writes event = false)
    {node : Lifetime Rest Body}
    (hsame : node.cacheFile = (run (Lifetime.step hashSlow codec) first events).cacheFile) :
    FileOfLastSave hashSlow codec first (events ++ [event]) node := by
  intro file hmem
  rw [hsame] at hmem
  obtain ⟨before, length, hlast, hbytes⟩ := hfile file hmem
  exact ⟨before, length, hlast.concat hevent, hbytes⟩

theorem fileOfLastSave_run (hfirst : first.cacheFile = none)
    (events : List (LifetimeEvent Rest Body)) :
    FileOfLastSave hashSlow codec first events
      (run (Lifetime.step hashSlow codec) first events) := by
  induction events using List.reverseRecOn with
  | nil =>
    intro file hmem
    rw [run_nil, hfirst] at hmem
    cases hmem
  | append_singleton events event ih =>
    rw [run_concat]
    cases event with
    | task event => exact ih.concat rfl rfl
    | restart blockCacheSize readable => exact ih.concat rfl rfl
    | save length =>
      cases hsaved : (run (Lifetime.step hashSlow codec) first events).saved with
      | true =>
        refine ih.concat (by simp only [writes, hsaved, Bool.not_true]) ?_
        simp only [Lifetime.step, hsaved, if_true]
      | false =>
        intro file hmem
        simp only [Lifetime.step, hsaved, Bool.false_eq_true, if_false, Option.mem_def,
          Option.some_inj] at hmem
        exact ⟨events, length, ⟨[], (List.append_nil _).symm, hsaved, trivial⟩, hmem.symm⟩

end LastSave

end Lifetime

/-- What lasts over restarts. Assumes: RLP decoding undoes encoding and does not decode less than an
encoding. After every run of a node that starts without a file, with saves that may be cut short and
starts of any capacity: the cache, the replies and the head are made of what came in in this session
or in an earlier one; and the next start, whatever its capacity, finds the first of the blocks that
the cache had at the last save, or an empty cache. -/
theorem lifetime_keeps (hashSlow : Header Rest → B256) {codec : BlockRlp Rest Body}
    (hcodec : codec.Inverts) (hself : codec.SelfDelimiting) (capacity : ℕ) (readable : Bool)
    (events : List (LifetimeEvent Rest Body)) :
    let step := Lifetime.step hashSlow codec
    let first := Lifetime.start codec none capacity readable
    let node := run step first events
    let sources := Sources.collected Lifetime.brings step first events
    PartOf (sources.collection hashSlow) node.blockCacheSize node.blockCache ∧
      (∀ reply ∈ node.task.replies, reply.MadeOf hashSlow sources) ∧
      (∀ member ∈ node.head, member ∈ (sources.collection hashSlow).headers) ∧
      ∀ blockCacheSize readable, ∃ loaded,
        (step node (.restart blockCacheSize readable)).blockCache =
          (BlockCache.new blockCacheSize).insertAll loaded ∧
        (loaded = [] ∨ ∃ before length,
          Lifetime.LastSave hashSlow codec first before events length ∧
          loaded <+: (run step first before).blockCache.drainBlocks) := by
  intro step first node sources
  have hfirst : first.Keeps hashSlow codec sources :=
    Lifetime.keeps_start hcodec hself (by rintro _ ⟨⟩) capacity readable
  have hkeeps : node.Keeps hashSlow codec sources :=
    hfirst.run hcodec hself ⟨Set.Subset.rfl, Set.Subset.rfl, Set.Subset.rfl⟩
  refine ⟨hkeeps.task.cache, hkeeps.task.replies, hkeeps.head, fun blockCacheSize readable ↦ ?_⟩
  have hfile : Lifetime.FileOfLastSave hashSlow codec first events node :=
    Lifetime.fileOfLastSave_run rfl events
  cases readable with
  | false => exact ⟨[], rfl, Or.inl rfl⟩
  | true =>
    cases hcacheFile : node.cacheFile with
    | none =>
      refine ⟨[], ?_, Or.inl rfl⟩
      simp only [step, Lifetime.step, hcacheFile]
      rfl
    | some file =>
      obtain ⟨before, length, hlast, rfl⟩ := hfile file hcacheFile
      obtain ⟨loaded, hprefix, hload⟩ := exists_prefix_loadFromFile hcodec hself
        (.new blockCacheSize) (run step first before).blockCache.drainBlocks length
      refine ⟨loaded, ?_, Or.inr ⟨before, length, hlast, hprefix⟩⟩
      simp only [step, Lifetime.step, hcacheFile]
      exact hload

/-- A save is cut within its second entry: the next start advertises the first block. -/
theorem lifetime_keeps_of_two :
    let events : List (LifetimeEvent Unit UInt8) :=
      [.task (.newBlock (.block ⟨.repeatByte 12, ⟨⟨.repeatByte 0, 1, 12, ()⟩, 1⟩⟩)),
        .task (.newBlock (.block ⟨.repeatByte 24, ⟨⟨.repeatByte 12, 2, 24, ()⟩, 2⟩⟩)),
        .save 100, .restart 2 true]
    let step := Lifetime.step (fun header ↦ .repeatByte header.timestamp.toUInt8) fixedRlp
    let first := Lifetime.start fixedRlp none 2 true
    let member := (B256.repeatByte 12, (⟨.repeatByte 0, 1, 12, ()⟩ : Header Unit))
    (run step first events).head = some member ∧
      member ∈ ((Sources.collected Lifetime.brings step first events).collection
        fun header ↦ .repeatByte header.timestamp.toUInt8).headers := by
  intro events step first member
  have hhead : (run step first events).head = some member := by decide +kernel
  obtain ⟨-, -, hmembers, -⟩ :=
    lifetime_keeps (fun header ↦ .repeatByte header.timestamp.toUInt8) fixedRlp_inverts
      fixedRlp_selfDelimiting 2 true events
  exact ⟨hhead, hmembers member hhead⟩

end SentryNode.Network
