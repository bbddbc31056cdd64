import SentryNode.BlockCache
import SentryNode.Library.Run

/-!
# The block cache over its whole history

A history is a list of method calls (`CacheOp`), and the state after it is a run from the empty
cache. What the four maps should hold is a matter of the history alone: under a number, the header
written last at that number and the hash it was written with; under a hash, the header and the body
written last under that hash. The maps evict independently of each other, so each of them holds a
part of its store, not all of it.

`coherentWith_after` carries that relation through every history. With headers inserted under their
true hashes it becomes the agreement of the maps (`coherent_after`): a number leads to the same
header in both maps keyed by number, a hash leads to a header with that hash, and every block
written to disk has its own hash and the body last inserted under it.
-/

set_option autoImplicit false
set_option relaxedAutoImplicit false

namespace SentryNode

open Library

variable {Rest Body : Type*}

/-! ### Histories -/

/-- A call of a method of the cache. -/
inductive CacheOp (Rest Body : Type*)
  | insert (hash : B256) (header : Header Rest) (body : Body)
  | insertHeader (hash : B256) (header : Header Rest)
  | insertBody (hash : B256) (body : Body)
  | getHeaderByHash (hash : B256)
  | getHeaderByNumber (number : UInt64)
  | getBodyByHash (hash : B256)
  | getHashByNumber (number : UInt64)
  | latest
  | saveToFile

namespace CacheOp

/-- The header a call writes, with the hash it is written under. -/
def headerWrite : CacheOp Rest Body → Option (B256 × Header Rest)
  | insert hash header _ => some (hash, header)
  | insertHeader hash header => some (hash, header)
  | _ => none

/-- The body a call writes, with its hash. -/
def bodyWrite : CacheOp Rest Body → Option (B256 × Body)
  | insert hash _ body => some (hash, body)
  | insertBody hash body => some (hash, body)
  | _ => none

end CacheOp

namespace BlockCache

/-- The cache after a call. `latest` and `saveToFile` only read. -/
def apply (cache : BlockCache Rest Body) : CacheOp Rest Body → BlockCache Rest Body
  | .insert hash header body => cache.insert hash header body
  | .insertHeader hash header => cache.insertHeader hash header
  | .insertBody hash body => cache.insertBody hash body
  | .getHeaderByHash hash => (cache.getHeaderByHash hash).2
  | .getHeaderByNumber number => (cache.getHeaderByNumber number).2
  | .getBodyByHash hash => (cache.getBodyByHash hash).2
  | .getHashByNumber number => (cache.getHashByNumber number).2
  | .latest => cache
  | .saveToFile => cache

/-- The cache of a capacity after a history of calls. -/
def after (capacity : ℕ) (ops : List (CacheOp Rest Body)) : BlockCache Rest Body :=
  run apply (.new capacity) ops

end BlockCache

theorem after_concat (capacity : ℕ) (before : List (CacheOp Rest Body)) (op : CacheOp Rest Body) :
    BlockCache.after capacity (before ++ [op]) = (BlockCache.after capacity before).apply op :=
  run_concat _ _ _ _

/-- The headers written, oldest first. -/
def headerWrites (ops : List (CacheOp Rest Body)) : List (B256 × Header Rest) :=
  ops.filterMap CacheOp.headerWrite

/-- The header written last at a number, with its hash. -/
def lastInsertedAt (ops : List (CacheOp Rest Body)) : UInt64 → Option (B256 × Header Rest) :=
  lastWritten ((headerWrites ops).map fun write ↦ (write.2.number, write))

/-- The header written last under a hash. -/
def lastHeaderUnder (ops : List (CacheOp Rest Body)) : B256 → Option (Header Rest) :=
  lastWritten (headerWrites ops)

/-- The body written last under a hash. -/
def lastBodyUnder (ops : List (CacheOp Rest Body)) : B256 → Option Body :=
  lastWritten (ops.filterMap CacheOp.bodyWrite)

/-- Every header of a history is inserted under its true hash. -/
def TrueHashes (hashOf : Header Rest → B256) (ops : List (CacheOp Rest Body)) : Prop :=
  ∀ write ∈ headerWrites ops, write.1 = hashOf write.2

instance (hashOf : Header Rest → B256) (ops : List (CacheOp Rest Body)) :
    Decidable (TrueHashes hashOf ops) := inferInstanceAs (Decidable (∀ write ∈ _, _))

theorem mem_of_lastInsertedAt {ops : List (CacheOp Rest Body)} {number : UInt64}
    {write : B256 × Header Rest} (hlast : lastInsertedAt ops number = some write) :
    write ∈ headerWrites ops ∧ write.2.number = number := by
  obtain ⟨other, hother, heq⟩ := List.mem_map.mp (mem_of_lastWritten hlast)
  obtain ⟨rfl, rfl⟩ := Prod.mk.inj heq
  exact ⟨hother, rfl⟩

/-! ### The stores after one more call -/

theorem headerWrites_concat (before : List (CacheOp Rest Body)) (op : CacheOp Rest Body) :
    headerWrites (before ++ [op]) = headerWrites before ++ op.headerWrite.toList := by
  rw [headerWrites, List.filterMap_append, List.filterMap_cons, List.filterMap_nil]
  cases op.headerWrite <;> rfl

theorem headerWrites_concat_of_none (before : List (CacheOp Rest Body)) {op : CacheOp Rest Body}
    (hop : op.headerWrite = none) : headerWrites (before ++ [op]) = headerWrites before := by
  rw [headerWrites_concat, hop, Option.toList_none, List.append_nil]

theorem lastInsertedAt_concat_of_some (before : List (CacheOp Rest Body)) {op : CacheOp Rest Body}
    {hash : B256} {header : Header Rest} (hop : op.headerWrite = some (hash, header)) :
    lastInsertedAt (before ++ [op]) =
      Function.update (lastInsertedAt before) header.number (some (hash, header)) := by
  rw [lastInsertedAt, headerWrites_concat, hop, List.map_append]
  exact lastWritten_concat _ _ _

theorem lastHeaderUnder_concat_of_some (before : List (CacheOp Rest Body)) {op : CacheOp Rest Body}
    {hash : B256} {header : Header Rest} (hop : op.headerWrite = some (hash, header)) :
    lastHeaderUnder (before ++ [op]) =
      Function.update (lastHeaderUnder before) hash (some header) := by
  rw [lastHeaderUnder, headerWrites_concat, hop]
  exact lastWritten_concat _ _ _

theorem lastBodyUnder_concat_of_some (before : List (CacheOp Rest Body)) {op : CacheOp Rest Body}
    {hash : B256} {body : Body} (hop : op.bodyWrite = some (hash, body)) :
    lastBodyUnder (before ++ [op]) = Function.update (lastBodyUnder before) hash (some body) := by
  rw [lastBodyUnder, List.filterMap_append, List.filterMap_cons_some hop, List.filterMap_nil]
  exact lastWritten_concat _ _ _

theorem lastBodyUnder_concat_of_none (before : List (CacheOp Rest Body)) {op : CacheOp Rest Body}
    (hop : op.bodyWrite = none) : lastBodyUnder (before ++ [op]) = lastBodyUnder before := by
  rw [lastBodyUnder, List.filterMap_append, List.filterMap_cons_none hop, List.filterMap_nil,
    List.append_nil, lastBodyUnder]

/-! ### What a call does to each map -/

/-- A call that writes a header pushes it in three maps. -/
theorem apply_of_headerWrite (cache : BlockCache Rest Body) {op : CacheOp Rest Body} {hash : B256}
    {header : Header Rest} (hop : op.headerWrite = some (hash, header)) :
    (cache.apply op).headersByHash = cache.headersByHash.push hash header ∧
      (cache.apply op).headersByNumber = cache.headersByNumber.push header.number header ∧
      (cache.apply op).hashByNumber = cache.hashByNumber.push header.number hash := by
  cases op with
  | insert | insertHeader =>
    obtain ⟨rfl, rfl⟩ := Prod.mk.inj (Option.some.inj hop)
    exact ⟨rfl, rfl, rfl⟩
  | _ => cases hop

/-- Any other call at most promotes in these maps. -/
theorem apply_of_headerWrite_none (cache : BlockCache Rest Body) {op : CacheOp Rest Body}
    (hop : op.headerWrite = none) :
    (∃ trace, (cache.apply op).headersByHash = cache.headersByHash.promoteAll trace) ∧
      (∃ trace, (cache.apply op).headersByNumber = cache.headersByNumber.promoteAll trace) ∧
      ∃ trace, (cache.apply op).hashByNumber = cache.hashByNumber.promoteAll trace := by
  cases op with
  | insert | insertHeader => cases hop
  | getHeaderByHash hash => exact ⟨⟨[hash], rfl⟩, ⟨[], rfl⟩, [], rfl⟩
  | getHeaderByNumber number => exact ⟨⟨[], rfl⟩, ⟨[number], rfl⟩, [], rfl⟩
  | getHashByNumber number => exact ⟨⟨[], rfl⟩, ⟨[], rfl⟩, [number], rfl⟩
  | _ => exact ⟨⟨[], rfl⟩, ⟨[], rfl⟩, [], rfl⟩

/-- A call that writes a body pushes it. -/
theorem apply_of_bodyWrite (cache : BlockCache Rest Body) {op : CacheOp Rest Body} {hash : B256}
    {body : Body} (hop : op.bodyWrite = some (hash, body)) :
    (cache.apply op).bodiesByHash = cache.bodiesByHash.push hash body := by
  cases op with
  | insert | insertBody =>
    obtain ⟨rfl, rfl⟩ := Prod.mk.inj (Option.some.inj hop)
    rfl
  | _ => cases hop

/-- Any other call at most promotes among the bodies. -/
theorem apply_of_bodyWrite_none (cache : BlockCache Rest Body) {op : CacheOp Rest Body}
    (hop : op.bodyWrite = none) :
    ∃ trace, (cache.apply op).bodiesByHash = cache.bodiesByHash.promoteAll trace := by
  cases op with
  | insert | insertBody => cases hop
  | getBodyByHash hash => exact ⟨[hash], rfl⟩
  | _ => exact ⟨[], rfl⟩

/-! ### Coherence with the history -/

/-- The maps of a cache are parts of the stores that its history determines, and have the effective
capacity. No header is forgotten altogether. -/
structure CoherentWith (capacity : ℕ) (ops : List (CacheOp Rest Body))
    (cache : BlockCache Rest Body) : Prop where
  headersByHash : cache.headersByHash.Reflects (lastHeaderUnder ops)
  headersByNumber : cache.headersByNumber.Reflects (Option.map Prod.snd ∘ lastInsertedAt ops)
  hashByNumber : cache.hashByNumber.Reflects (Option.map Prod.fst ∘ lastInsertedAt ops)
  bodiesByHash : cache.bodiesByHash.Reflects (lastBodyUnder ops)
  capacity_headersByHash : cache.headersByHash.capacity = BlockCache.effectiveCapacity capacity
  capacity_headersByNumber : cache.headersByNumber.capacity = BlockCache.effectiveCapacity capacity
  capacity_hashByNumber : cache.hashByNumber.capacity = BlockCache.effectiveCapacity capacity
  capacity_bodiesByHash : cache.bodiesByHash.capacity = BlockCache.effectiveCapacity capacity
  some_header : cache.headersByNumber.keys = [] → headerWrites ops = []

theorem coherentWith_new (capacity : ℕ) :
    CoherentWith capacity [] (.new capacity : BlockCache Rest Body) where
  headersByHash := LruCache.reflects_new _ _ _
  headersByNumber := LruCache.reflects_new _ _ _
  hashByNumber := LruCache.reflects_new _ _ _
  bodiesByHash := LruCache.reflects_new _ _ _
  capacity_headersByHash := rfl
  capacity_headersByNumber := rfl
  capacity_hashByNumber := rfl
  capacity_bodiesByHash := rfl
  some_header := fun _ ↦ rfl

/-- One call keeps the cache coherent with its history. The header maps and the body map are treated
apart, each by whether the call writes to it. -/
theorem CoherentWith.apply {capacity : ℕ} {before : List (CacheOp Rest Body)}
    {cache : BlockCache Rest Body} (hcache : CoherentWith capacity before cache)
    (op : CacheOp Rest Body) : CoherentWith capacity (before ++ [op]) (cache.apply op) := by
  have hbodies : (cache.apply op).bodiesByHash.Reflects (lastBodyUnder (before ++ [op])) ∧
      (cache.apply op).bodiesByHash.capacity = BlockCache.effectiveCapacity capacity := by
    cases hop : op.bodyWrite with
    | none =>
      obtain ⟨trace, hmap⟩ := apply_of_bodyWrite_none cache hop
      rw [hmap, lastBodyUnder_concat_of_none before hop, LruCache.capacity_promoteAll]
      exact ⟨hcache.bodiesByHash.promoteAll trace, hcache.capacity_bodiesByHash⟩
    | some write =>
      rw [apply_of_bodyWrite cache hop, lastBodyUnder_concat_of_some before hop]
      exact ⟨hcache.bodiesByHash.push_update _ _, hcache.capacity_bodiesByHash⟩
  cases hop : op.headerWrite with
  | none =>
    obtain ⟨⟨byHash, hheaders⟩, ⟨byNumber, hnumbers⟩, hashes, hhashes⟩ :=
      apply_of_headerWrite_none cache hop
    have hwrites := headerWrites_concat_of_none before hop
    have hlast : lastInsertedAt (before ++ [op]) = lastInsertedAt before := by
      rw [lastInsertedAt, hwrites, lastInsertedAt]
    exact {
      headersByHash := by
        rw [hheaders, lastHeaderUnder, hwrites]
        exact hcache.headersByHash.promoteAll byHash
      headersByNumber := by
        rw [hnumbers, hlast]
        exact hcache.headersByNumber.promoteAll byNumber
      hashByNumber := by
        rw [hhashes, hlast]
        exact hcache.hashByNumber.promoteAll hashes
      bodiesByHash := hbodies.1
      capacity_headersByHash := by
        rw [hheaders, LruCache.capacity_promoteAll, hcache.capacity_headersByHash]
      capacity_headersByNumber := by
        rw [hnumbers, LruCache.capacity_promoteAll, hcache.capacity_headersByNumber]
      capacity_hashByNumber := by
        rw [hhashes, LruCache.capacity_promoteAll, hcache.capacity_hashByNumber]
      capacity_bodiesByHash := hbodies.2
      some_header := fun hkeys ↦ by
        rw [hwrites]
        refine hcache.some_header (List.length_eq_zero_iff.mp ?_)
        rw [← LruCache.length_keys_promoteAll _ byNumber, ← hnumbers, hkeys, List.length_nil] }
  | some write =>
    obtain ⟨hheaders, hnumbers, hhashes⟩ := apply_of_headerWrite cache hop
    have hlast := lastInsertedAt_concat_of_some before hop
    exact {
      headersByHash := by
        rw [hheaders, lastHeaderUnder_concat_of_some before hop]
        exact hcache.headersByHash.push_update _ _
      headersByNumber := by
        rw [hnumbers, hlast, Function.comp_update]
        exact hcache.headersByNumber.push_update _ _
      hashByNumber := by
        rw [hhashes, hlast, Function.comp_update]
        exact hcache.hashByNumber.push_update _ _
      bodiesByHash := hbodies.1
      capacity_headersByHash := by rw [hheaders]; exact hcache.capacity_headersByHash
      capacity_headersByNumber := by rw [hnumbers]; exact hcache.capacity_headersByNumber
      capacity_hashByNumber := by rw [hhashes]; exact hcache.capacity_hashByNumber
      capacity_bodiesByHash := hbodies.2
      some_header := fun hkeys ↦ by
        have hself := LruCache.mem_keys_push_self cache.headersByNumber write.2.number write.2
        rw [← hnumbers, hkeys] at hself
        exact absurd hself List.not_mem_nil }

/-- After every history the cache is coherent with it. -/
theorem coherentWith_after (capacity : ℕ) (ops : List (CacheOp Rest Body)) :
    CoherentWith capacity ops (BlockCache.after capacity ops) :=
  run_history (CoherentWith capacity) (coherentWith_new capacity)
    (fun _ _ op hcache ↦ hcache.apply op) ops

/-! ### Agreement of the maps -/

section Agreement

variable {hashOf : Header Rest → B256} {capacity : ℕ} {ops : List (CacheOp Rest Body)}
  {cache : BlockCache Rest Body}

/-- A header found by number was the last one inserted at that number. -/
theorem CoherentWith.header_at (hcache : CoherentWith capacity ops cache) {number : UInt64}
    {header : Header Rest} (hpeek : cache.headersByNumber.peek number = some header) :
    ∃ hash, lastInsertedAt ops number = some (hash, header) ∧ header.number = number := by
  obtain ⟨⟨hash, last⟩, hlast, hheader⟩ :=
    Option.map_eq_some_iff.mp (hcache.headersByNumber number header hpeek)
  subst hheader
  exact ⟨hash, hlast, (mem_of_lastInsertedAt hlast).2⟩

/-- A hash found by number is that of the last header inserted at that number. -/
theorem CoherentWith.hash_at (hcache : CoherentWith capacity ops cache)
    (htrue : TrueHashes hashOf ops) {number : UInt64} {hash : B256}
    (hpeek : cache.hashByNumber.peek number = some hash) :
    ∃ header, lastInsertedAt ops number = some (hash, header) ∧ hash = hashOf header := by
  obtain ⟨⟨last, header⟩, hlast, hhash⟩ :=
    Option.map_eq_some_iff.mp (hcache.hashByNumber number hash hpeek)
  subst hhash
  exact ⟨header, hlast, htrue _ (mem_of_lastInsertedAt hlast).1⟩

/-- A header found by hash has that hash. -/
theorem CoherentWith.header_under (hcache : CoherentWith capacity ops cache)
    (htrue : TrueHashes hashOf ops) {hash : B256} {header : Header Rest}
    (hpeek : cache.headersByHash.peek hash = some header) : hashOf header = hash :=
  (htrue _ (mem_of_lastWritten (hcache.headersByHash hash header hpeek))).symm

/-- The header and the hash found under one number are of one block. -/
theorem CoherentWith.hash_eq (hcache : CoherentWith capacity ops cache)
    (htrue : TrueHashes hashOf ops) {number : UInt64} {hash : B256} {header : Header Rest}
    (hhash : cache.hashByNumber.peek number = some hash)
    (hheader : cache.headersByNumber.peek number = some header) : hash = hashOf header := by
  obtain ⟨other, hother, -⟩ := hcache.header_at hheader
  obtain ⟨last, hlast, htrueHash⟩ := hcache.hash_at htrue hhash
  rw [hother, Option.some_inj, Prod.mk.injEq] at hlast
  rw [htrueHash, hlast.2]

theorem mem_drainBlocks {cache : BlockCache Rest Body} {block : CachedBlock Rest Body}
    (hblock : block ∈ cache.drainBlocks) :
    ∃ number, cache.hashByNumber.peek number = some block.hash ∧
      cache.headersByNumber.peek number = some block.header ∧
      cache.bodiesByHash.peek block.hash = some block.body := by
  obtain ⟨⟨number, hash⟩, hentry, hmap⟩ :=
    List.mem_filterMap.mp ((List.mem_insertionSort _).mp hblock)
  obtain ⟨header, hheader, hbody⟩ := Option.bind_eq_some_iff.mp hmap
  obtain ⟨body, hpeek, rfl⟩ := Option.map_eq_some_iff.mp hbody
  exact ⟨number, LruCache.peek_eq_some_iff.mpr hentry, hheader, hpeek⟩

/-- The agreement of the four maps of a cache with each other and with its history: sizes and
distinct keys; under a number the last header inserted at it, and its hash; under a hash a header
with that hash; and in every drained block one header with its hash and the last body under it. -/
structure Coherent (hashOf : Header Rest → B256) (capacity : ℕ) (ops : List (CacheOp Rest Body))
    (cache : BlockCache Rest Body) : Prop where
  headersByHash_fits : cache.headersByHash.entries.length ≤ BlockCache.effectiveCapacity capacity ∧
    cache.headersByHash.keys.Nodup
  headersByNumber_fits :
    cache.headersByNumber.entries.length ≤ BlockCache.effectiveCapacity capacity ∧
      cache.headersByNumber.keys.Nodup
  hashByNumber_fits : cache.hashByNumber.entries.length ≤ BlockCache.effectiveCapacity capacity ∧
    cache.hashByNumber.keys.Nodup
  bodiesByHash_fits : cache.bodiesByHash.entries.length ≤ BlockCache.effectiveCapacity capacity ∧
    cache.bodiesByHash.keys.Nodup
  header_at : ∀ number header, cache.headersByNumber.peek number = some header →
    ∃ hash, lastInsertedAt ops number = some (hash, header) ∧ header.number = number
  hash_at : ∀ number hash, cache.hashByNumber.peek number = some hash →
    ∃ header, lastInsertedAt ops number = some (hash, header) ∧ hash = hashOf header
  header_under : ∀ hash header, cache.headersByHash.peek hash = some header → hashOf header = hash
  drained : ∀ block ∈ cache.drainBlocks,
    block.hash = hashOf block.header ∧ lastBodyUnder ops block.hash = some block.body

/-- The maps of the cache agree after every history. Assumes: headers inserted under their true
hashes. -/
theorem coherent_after (hashOf : Header Rest → B256) (capacity : ℕ) (ops : List (CacheOp Rest Body))
    (htrue : TrueHashes hashOf ops) :
    Coherent hashOf capacity ops (BlockCache.after capacity ops) := by
  have hcache := coherentWith_after capacity ops
  exact {
    headersByHash_fits :=
      ⟨hcache.capacity_headersByHash ▸ LruCache.length_le _, LruCache.nodup_keys' _⟩
    headersByNumber_fits :=
      ⟨hcache.capacity_headersByNumber ▸ LruCache.length_le _, LruCache.nodup_keys' _⟩
    hashByNumber_fits :=
      ⟨hcache.capacity_hashByNumber ▸ LruCache.length_le _, LruCache.nodup_keys' _⟩
    bodiesByHash_fits :=
      ⟨hcache.capacity_bodiesByHash ▸ LruCache.length_le _, LruCache.nodup_keys' _⟩
    header_at := fun _ _ hpeek ↦ hcache.header_at hpeek
    hash_at := fun _ _ hpeek ↦ hcache.hash_at htrue hpeek
    header_under := fun _ _ hpeek ↦ hcache.header_under htrue hpeek
    drained := fun block hblock ↦ by
      obtain ⟨number, hhash, hheader, hbody⟩ := mem_drainBlocks hblock
      exact ⟨hcache.hash_eq htrue hhash hheader, hcache.bodiesByHash _ _ hbody⟩ }

/-- Two competing blocks of one height and a header fetched for a peer, in a cache of two. -/
theorem coherent_after_fork :
    Coherent (fun header : Header UInt8 ↦ .repeatByte header.rest) 2
      [.insert (.repeatByte 1) ⟨.repeatByte 0, 5, 60, 1⟩ "first",
        .insert (.repeatByte 2) ⟨.repeatByte 0, 5, 61, 2⟩ "second",
        .getHeaderByNumber 5, .insertHeader (.repeatByte 3) ⟨.repeatByte 9, 4, 48, 3⟩]
      (BlockCache.after 2
        [.insert (.repeatByte 1) ⟨.repeatByte 0, 5, 60, 1⟩ "first",
          .insert (.repeatByte 2) ⟨.repeatByte 0, 5, 61, 2⟩ "second",
          .getHeaderByNumber 5, .insertHeader (.repeatByte 3) ⟨.repeatByte 9, 4, 48, 3⟩]) :=
  coherent_after _ 2 _ (by decide)

end Agreement

end SentryNode
