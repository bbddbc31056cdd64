import SentryNode.BlockCache.History

/-!
# Blocks held whole

A block inserted as a whole enters all four maps at once, but each lookup promotes its entry in one
map only, and every map evicts by its own recency order. After a lookup the maps can therefore let
go of different blocks, and a block is then held in part. The readers of the cache allow for that:
`drainBlocks` leaves such blocks out, and a request that needs the lost part goes to a peer.

For distinct blocks, `wholeThroughout_iff` says when it does not happen: exactly when every
insertion that finds the maps full evicts one block from all four of them (`EvictsOneBlock`).
Without lookups the four maps run in lockstep (`InsertionOrder`), and that is always so.
-/

set_option autoImplicit false
set_option relaxedAutoImplicit false

namespace SentryNode

open Library

variable {Rest Body : Type*}

/-! ### Histories of whole blocks -/

namespace CacheOp

/-- A call that does not insert a header or a body alone. -/
def ofWholeBlocks : CacheOp Rest Body → Bool
  | insertHeader _ _ => false
  | insertBody _ _ => false
  | _ => true

/-- A call that looks up one entry, and promotes it. -/
def isLookup : CacheOp Rest Body → Bool
  | getHeaderByHash _ => true
  | getHeaderByNumber _ => true
  | getBodyByHash _ => true
  | getHashByNumber _ => true
  | _ => false

end CacheOp

/-- A history that inserts whole blocks, with pairwise distinct hashes and numbers. -/
structure DistinctBlocks (ops : List (CacheOp Rest Body)) : Prop where
  whole : ∀ op ∈ ops, op.ofWholeBlocks
  hashes : ((headerWrites ops).map Prod.fst).Nodup
  numbers : ((headerWrites ops).map fun write ↦ write.2.number).Nodup

/-- The four maps agree on whether they hold a block. -/
@[mk_iff]
structure HeldWhole (cache : BlockCache Rest Body) (hash : B256) (number : UInt64) : Prop where
  body_iff : hash ∈ cache.headersByHash.keys ↔ hash ∈ cache.bodiesByHash.keys
  header_iff : hash ∈ cache.bodiesByHash.keys ↔ number ∈ cache.headersByNumber.keys
  hash_iff : number ∈ cache.headersByNumber.keys ↔ number ∈ cache.hashByNumber.keys

/-- Every block inserted so far is held whole or not at all. -/
def AllWhole (ops : List (CacheOp Rest Body)) (cache : BlockCache Rest Body) : Prop :=
  ∀ write ∈ headerWrites ops, HeldWhole cache write.1 write.2.number

/-- A call that writes while the maps are full evicts one block from all four of them: their least
recently used entries belong together. -/
def EvictsOneBlock (cache : BlockCache Rest Body) (op : CacheOp Rest Body) : Prop :=
  op.headerWrite.isSome → cache.headersByHash.keys.length = cache.headersByHash.capacity →
    ∃ hash header, cache.headersByHash.entries.getLast? = some (hash, header) ∧
      cache.bodiesByHash.keys.getLast? = some hash ∧
      cache.headersByNumber.keys.getLast? = some header.number ∧
      cache.hashByNumber.keys.getLast? = some header.number

/-! ### One call on whole blocks -/

/-- A call on whole blocks inserts one block, or at most promotes. -/
theorem CacheOp.insert_or_none_of_ofWholeBlocks {op : CacheOp Rest Body} (hop : op.ofWholeBlocks) :
    (∃ hash header body, op = .insert hash header body) ∨
      op.headerWrite = none ∧ op.bodyWrite = none := by
  cases op with
  | insert hash header body => exact Or.inl ⟨hash, header, body, rfl⟩
  | insertHeader | insertBody => cases hop
  | _ => exact Or.inr ⟨rfl, rfl⟩

theorem DistinctBlocks.of_append {before after : List (CacheOp Rest Body)}
    (hdistinct : DistinctBlocks (before ++ after)) : DistinctBlocks before := by
  have hwrites : (headerWrites before).Sublist (headerWrites (before ++ after)) := by
    rw [headerWrites, headerWrites, List.filterMap_append]
    exact List.sublist_append_left _ _
  exact {
    whole := fun op hop ↦ hdistinct.whole op (List.mem_append_left _ hop)
    hashes := hdistinct.hashes.sublist (hwrites.map _)
    numbers := hdistinct.numbers.sublist (hwrites.map _) }

/-- The block inserted last has a hash and a number of its own. -/
theorem DistinctBlocks.fresh {before : List (CacheOp Rest Body)} {hash : B256}
    {header : Header Rest} {body : Body}
    (hdistinct : DistinctBlocks (before ++ [.insert hash header body])) :
    (∀ write ∈ headerWrites before, write.1 ≠ hash) ∧
      ∀ write ∈ headerWrites before, write.2.number ≠ header.number := by
  have hhashes := hdistinct.hashes
  have hnumbers := hdistinct.numbers
  rw [headerWrites_concat, List.map_append, List.nodup_append] at hhashes hnumbers
  exact ⟨fun write hwrite ↦ hhashes.2.2 _ (List.mem_map_of_mem hwrite) hash List.mem_cons_self,
    fun write hwrite ↦
      hnumbers.2.2 _ (List.mem_map_of_mem hwrite) header.number List.mem_cons_self⟩

/-- Two inserted blocks with one hash, or with one number, are the same. -/
theorem DistinctBlocks.eq_iff {ops : List (CacheOp Rest Body)} (hdistinct : DistinctBlocks ops)
    {first second : B256 × Header Rest} (hfirst : first ∈ headerWrites ops)
    (hsecond : second ∈ headerWrites ops) :
    first.1 = second.1 ↔ first.2.number = second.2.number :=
  ⟨fun h ↦ congrArg (fun write : B256 × Header Rest ↦ write.2.number)
      (List.inj_on_of_nodup_map hdistinct.hashes hfirst hsecond h),
    fun h ↦ congrArg Prod.fst (List.inj_on_of_nodup_map hdistinct.numbers hfirst hsecond h)⟩

/-! ### What the maps hold -/

/-- The keys of the four maps are those of inserted blocks. -/
structure OfInserted (ops : List (CacheOp Rest Body)) (cache : BlockCache Rest Body) : Prop where
  header_mem : ∀ hash header, cache.headersByHash.peek hash = some header →
    (hash, header) ∈ headerWrites ops
  body_mem : ∀ hash ∈ cache.bodiesByHash.keys, ∃ write ∈ headerWrites ops, write.1 = hash
  number_mem : ∀ number ∈ cache.headersByNumber.keys,
    ∃ write ∈ headerWrites ops, write.2.number = number
  hash_mem : ∀ number ∈ cache.hashByNumber.keys,
    ∃ write ∈ headerWrites ops, write.2.number = number

theorem CoherentWith.ofInserted {capacity : ℕ} {ops : List (CacheOp Rest Body)}
    {cache : BlockCache Rest Body} (hcache : CoherentWith capacity ops cache)
    (hdistinct : DistinctBlocks ops) : OfInserted ops cache where
  header_mem := fun hash header hpeek ↦ mem_of_lastWritten (hcache.headersByHash hash header hpeek)
  body_mem := fun hash hhash ↦ by
    obtain ⟨body, hpeek⟩ := LruCache.mem_keys_iff.mp hhash
    obtain ⟨op, hop, hwrite⟩ := List.mem_filterMap.mp
      (mem_of_lastWritten (hcache.bodiesByHash hash body hpeek))
    rcases op.insert_or_none_of_ofWholeBlocks (hdistinct.whole op hop) with
      ⟨other, header, found, rfl⟩ | ⟨-, hnone⟩
    · refine ⟨(other, header), List.mem_filterMap.mpr ⟨_, hop, rfl⟩, ?_⟩
      exact congrArg Prod.fst (Option.some.inj hwrite)
    · rw [hnone] at hwrite
      cases hwrite
  number_mem := fun number hnumber ↦ by
    obtain ⟨header, hpeek⟩ := LruCache.mem_keys_iff.mp hnumber
    obtain ⟨hash, hlast, -⟩ := hcache.header_at hpeek
    exact ⟨_, mem_of_lastInsertedAt hlast⟩
  hash_mem := fun number hnumber ↦ by
    obtain ⟨hash, hpeek⟩ := LruCache.mem_keys_iff.mp hnumber
    obtain ⟨write, hlast, -⟩ := Option.map_eq_some_iff.mp (hcache.hashByNumber number hash hpeek)
    exact ⟨write, mem_of_lastInsertedAt hlast⟩

/-- The four maps have the same number of entries. -/
structure Balanced (cache : BlockCache Rest Body) : Prop where
  bodies : cache.bodiesByHash.keys.length = cache.headersByHash.keys.length
  numbers : cache.headersByNumber.keys.length = cache.headersByHash.keys.length
  hashes : cache.hashByNumber.keys.length = cache.headersByHash.keys.length

/-! ### Throughout a history -/

section Throughout

variable {capacity : ℕ} {before : List (CacheOp Rest Body)} {op : CacheOp Rest Body}
  {hash : B256} {header : Header Rest} {body : Body}

/-- A block about to be inserted is under no key of any map. -/
theorem not_mem_keys_of_fresh {cache : BlockCache Rest Body}
    (hdistinct : DistinctBlocks (before ++ [.insert hash header body]))
    (hinserted : OfInserted before cache) :
    hash ∉ cache.headersByHash.keys ∧ hash ∉ cache.bodiesByHash.keys ∧
      header.number ∉ cache.headersByNumber.keys ∧ header.number ∉ cache.hashByNumber.keys := by
  obtain ⟨hhash, hnumber⟩ := hdistinct.fresh
  refine ⟨fun h ↦ ?_, fun h ↦ ?_, fun h ↦ ?_, fun h ↦ ?_⟩
  · obtain ⟨other, hpeek⟩ := LruCache.mem_keys_iff.mp h
    exact hhash _ (hinserted.header_mem hash other hpeek) rfl
  · obtain ⟨write, hwrite, heq⟩ := hinserted.body_mem hash h
    exact hhash write hwrite heq
  · obtain ⟨write, hwrite, heq⟩ := hinserted.number_mem header.number h
    exact hnumber write hwrite heq
  · obtain ⟨write, hwrite, heq⟩ := hinserted.hash_mem header.number h
    exact hnumber write hwrite heq

/-- The four maps of a history of distinct whole blocks stay of one size. -/
theorem balanced_after (capacity : ℕ) {ops : List (CacheOp Rest Body)}
    (hdistinct : DistinctBlocks ops) : Balanced (BlockCache.after capacity ops) := by
  induction ops using List.reverseRecOn with
  | nil => exact ⟨rfl, rfl, rfl⟩
  | append_singleton before op ih =>
    have hcache := coherentWith_after capacity before
    obtain ⟨hbodies, hnumbers, hhashes⟩ := ih hdistinct.of_append
    rw [after_concat]
    rcases op.insert_or_none_of_ofWholeBlocks
      (hdistinct.whole op (List.mem_append_right _ List.mem_cons_self)) with
      ⟨hash, header, body, rfl⟩ | ⟨hheader, hbody⟩
    · obtain ⟨h₁, h₂, h₃, h₄⟩ :=
        not_mem_keys_of_fresh hdistinct (hcache.ofInserted hdistinct.of_append)
      simp only [BlockCache.apply, BlockCache.insert]
      constructor <;>
        simp only [LruCache.length_keys_push_of_fresh, h₁, h₂, h₃, h₄, not_false_eq_true,
          hbodies, hnumbers, hhashes, hcache.capacity_headersByHash, hcache.capacity_bodiesByHash,
          hcache.capacity_headersByNumber, hcache.capacity_hashByNumber]
    · obtain ⟨⟨_, h₁⟩, ⟨_, h₂⟩, _, h₃⟩ :=
        apply_of_headerWrite_none (BlockCache.after capacity before) hheader
      obtain ⟨_, h₄⟩ := apply_of_bodyWrite_none (BlockCache.after capacity before) hbody
      constructor <;> simp only [h₁, h₂, h₃, h₄, LruCache.length_keys_promoteAll, hbodies, hnumbers,
        hhashes]

/-- The hash and number under which a block is held after the insertion of another one: each map
keeps it unless it was full and the block was its least recently used one. -/
theorem mem_keys_insert_iff (capacity : ℕ)
    (hdistinct : DistinctBlocks (before ++ [.insert hash header body]))
    {write : B256 × Header Rest} (hwrite : write ∈ headerWrites before) :
    let cache := BlockCache.after capacity before
    let full := cache.headersByHash.keys.length = cache.headersByHash.capacity
    let next := cache.insert hash header body
    (write.1 ∈ next.headersByHash.keys ↔ write.1 ∈ cache.headersByHash.keys ∧
        (full → cache.headersByHash.keys.getLast? ≠ some write.1)) ∧
      (write.1 ∈ next.bodiesByHash.keys ↔ write.1 ∈ cache.bodiesByHash.keys ∧
        (full → cache.bodiesByHash.keys.getLast? ≠ some write.1)) ∧
      (write.2.number ∈ next.headersByNumber.keys ↔ write.2.number ∈ cache.headersByNumber.keys ∧
        (full → cache.headersByNumber.keys.getLast? ≠ some write.2.number)) ∧
      (write.2.number ∈ next.hashByNumber.keys ↔ write.2.number ∈ cache.hashByNumber.keys ∧
        (full → cache.hashByNumber.keys.getLast? ≠ some write.2.number)) := by
  intro cache full next
  have hcache := coherentWith_after capacity before
  obtain ⟨hbodies, hnumbers, hhashes⟩ := balanced_after capacity hdistinct.of_append
  obtain ⟨hfresh₁, hfresh₂, hfresh₃, hfresh₄⟩ :=
    not_mem_keys_of_fresh hdistinct (hcache.ofInserted hdistinct.of_append)
  obtain ⟨hhash, hnumber⟩ := hdistinct.fresh
  have h₁ := LruCache.mem_keys_push_of_fresh hfresh₁ header write.1
  have h₂ := LruCache.mem_keys_push_of_fresh hfresh₂ body write.1
  have h₃ := LruCache.mem_keys_push_of_fresh hfresh₃ header write.2.number
  have h₄ := LruCache.mem_keys_push_of_fresh hfresh₄ hash write.2.number
  rw [hbodies, hcache.capacity_bodiesByHash, ← hcache.capacity_headersByHash] at h₂
  rw [hnumbers, hcache.capacity_headersByNumber, ← hcache.capacity_headersByHash] at h₃
  rw [hhashes, hcache.capacity_hashByNumber, ← hcache.capacity_headersByHash] at h₄
  exact ⟨h₁.trans (or_iff_right (hhash write hwrite)), h₂.trans (or_iff_right (hhash write hwrite)),
    h₃.trans (or_iff_right (hnumber write hwrite)), h₄.trans (or_iff_right (hnumber write hwrite))⟩

/-- The block inserted last is in all four maps. -/
theorem heldWhole_insert_self (cache : BlockCache Rest Body) (hash : B256) (header : Header Rest)
    (body : Body) : HeldWhole (cache.insert hash header body) hash header.number where
  body_iff := iff_of_true (LruCache.mem_keys_push_self _ _ _) (LruCache.mem_keys_push_self _ _ _)
  header_iff := iff_of_true (LruCache.mem_keys_push_self _ _ _) (LruCache.mem_keys_push_self _ _ _)
  hash_iff := iff_of_true (LruCache.mem_keys_push_self _ _ _) (LruCache.mem_keys_push_self _ _ _)

/-- A call that writes nothing moves no block. -/
theorem heldWhole_apply_iff {cache : BlockCache Rest Body} (hheader : op.headerWrite = none)
    (hbody : op.bodyWrite = none) {number : UInt64} :
    HeldWhole (cache.apply op) hash number ↔ HeldWhole cache hash number := by
  obtain ⟨⟨_, h₁⟩, ⟨_, h₂⟩, _, h₃⟩ := apply_of_headerWrite_none cache hheader
  obtain ⟨_, h₄⟩ := apply_of_bodyWrite_none cache hbody
  simp only [heldWhole_iff, h₁, h₂, h₃, h₄, LruCache.mem_keys_promoteAll]

/-- An insertion that finds the maps full and leaves every earlier block whole evicts one block.
It is the least recently used one of `headersByHash`: gone from that map, it is gone from all. -/
theorem evictsOneBlock_of_allWhole
    (hdistinct : DistinctBlocks (before ++ [.insert hash header body]))
    (hbefore : AllWhole before (BlockCache.after capacity before))
    (hafter : AllWhole (before ++ [.insert hash header body])
      ((BlockCache.after capacity before).insert hash header body)) :
    EvictsOneBlock (BlockCache.after capacity before) (.insert hash header body) := by
  intro _ hfull
  have hcache := coherentWith_after capacity before
  obtain ⟨write, hlast⟩ := LruCache.exists_getLast?_of_full hfull
  have hwrite : write ∈ headerWrites before :=
    (hcache.ofInserted hdistinct.of_append).header_mem write.1 write.2
      (LruCache.peek_eq_some_iff.mpr (List.mem_of_getLast? hlast))
  have hkey : (BlockCache.after capacity before).headersByHash.keys.getLast? = some write.1 := by
    rw [LruCache.getLast?_keys, hlast, Option.map_some]
  have hmem : write.1 ∈ (BlockCache.after capacity before).headersByHash.keys :=
    List.mem_of_getLast? hkey
  obtain ⟨hbody, hheader, hhash⟩ := hbefore write hwrite
  obtain ⟨hbodyAfter, hheaderAfter, hhashAfter⟩ := hafter write (by
    rw [headerWrites_concat]
    exact List.mem_append_left _ hwrite)
  obtain ⟨h₁, h₂, h₃, h₄⟩ := mem_keys_insert_iff capacity hdistinct hwrite
  have hgone := mt h₁.mp fun h ↦ h.2 hfull hkey
  have hgoneBody := mt hbodyAfter.mpr hgone
  have hgoneHeader := mt hheaderAfter.mpr hgoneBody
  have hgoneHash := mt hhashAfter.mpr hgoneHeader
  refine ⟨write.1, write.2, hlast, ?_, ?_, ?_⟩
  · by_contra hne
    exact hgoneBody (h₂.mpr ⟨hbody.mp hmem, fun _ ↦ hne⟩)
  · by_contra hne
    exact hgoneHeader (h₃.mpr ⟨hheader.mp (hbody.mp hmem), fun _ ↦ hne⟩)
  · by_contra hne
    exact hgoneHash (h₄.mpr ⟨hhash.mp (hheader.mp (hbody.mp hmem)), fun _ ↦ hne⟩)

/-- The least recently used entries of four maps that evict one block are those of an inserted
block, which is a given one in all of the maps or in none. -/
theorem EvictsOneBlock.lasts (hdistinct : DistinctBlocks before)
    (hevicts : EvictsOneBlock (BlockCache.after capacity before) (.insert hash header body))
    (hfull : (BlockCache.after capacity before).headersByHash.keys.length =
      (BlockCache.after capacity before).headersByHash.capacity)
    {write : B256 × Header Rest} (hwrite : write ∈ headerWrites before) :
    ∃ last : B256 × Header Rest,
      (BlockCache.after capacity before).headersByHash.keys.getLast? = some last.1 ∧
        (BlockCache.after capacity before).bodiesByHash.keys.getLast? = some last.1 ∧
        (BlockCache.after capacity before).headersByNumber.keys.getLast? = some last.2.number ∧
        (BlockCache.after capacity before).hashByNumber.keys.getLast? = some last.2.number ∧
        (last.1 = write.1 ↔ last.2.number = write.2.number) := by
  obtain ⟨last, header, hentry, hbody, hheader, hhash⟩ := hevicts rfl hfull
  have hinserted := (coherentWith_after capacity before).ofInserted hdistinct
  have hlast := hinserted.header_mem last header
    (LruCache.peek_eq_some_iff.mpr (List.mem_of_getLast? hentry))
  refine ⟨(last, header), ?_, hbody, hheader, hhash, hdistinct.eq_iff hlast hwrite⟩
  rw [LruCache.getLast?_keys, hentry, Option.map_some]

/-- An insertion that evicts one block, if any, leaves every block whole. -/
theorem allWhole_of_evictsOneBlock
    (hdistinct : DistinctBlocks (before ++ [.insert hash header body]))
    (hbefore : AllWhole before (BlockCache.after capacity before))
    (hevicts : EvictsOneBlock (BlockCache.after capacity before) (.insert hash header body)) :
    AllWhole (before ++ [.insert hash header body])
      ((BlockCache.after capacity before).insert hash header body) := by
  intro write hmem
  rw [headerWrites_concat, List.mem_append] at hmem
  rcases hmem with hwrite | hself
  · obtain ⟨hbody, hheader, hhash⟩ := hbefore write hwrite
    obtain ⟨h₁, h₂, h₃, h₄⟩ := mem_keys_insert_iff capacity hdistinct hwrite
    rw [heldWhole_iff, h₁, h₂, h₃, h₄]
    refine ⟨and_congr hbody (forall_congr' fun hfull ↦ ?_),
      and_congr hheader (forall_congr' fun hfull ↦ ?_),
      and_congr hhash (forall_congr' fun hfull ↦ ?_)⟩ <;>
      obtain ⟨last, hlast₁, hlast₂, hlast₃, hlast₄, hsame⟩ :=
        hevicts.lasts hdistinct.of_append hfull hwrite
    · rw [hlast₁, hlast₂]
    · rw [hlast₂, hlast₃, ne_eq, ne_eq, Option.some_inj, Option.some_inj, hsame]
    · rw [hlast₃, hlast₄]
  · obtain rfl := List.mem_singleton.mp hself
    exact heldWhole_insert_self _ _ _ _

/-- One call on distinct whole blocks, all of them whole before it. -/
theorem allWhole_concat_iff (capacity : ℕ) (hdistinct : DistinctBlocks (before ++ [op]))
    (hbefore : AllWhole before (BlockCache.after capacity before)) :
    AllWhole (before ++ [op]) (BlockCache.after capacity (before ++ [op])) ↔
      EvictsOneBlock (BlockCache.after capacity before) op := by
  rw [after_concat]
  rcases op.insert_or_none_of_ofWholeBlocks
    (hdistinct.whole op (List.mem_append_right _ List.mem_cons_self)) with
    ⟨hash, header, body, rfl⟩ | ⟨hheader, hbody⟩
  · exact ⟨evictsOneBlock_of_allWhole hdistinct hbefore,
      allWhole_of_evictsOneBlock hdistinct hbefore⟩
  · refine iff_of_true (fun write hwrite ↦ ?_) fun hsome ↦ ?_
    · rw [headerWrites_concat_of_none before hheader] at hwrite
      exact (heldWhole_apply_iff hheader hbody).mpr (hbefore write hwrite)
    · rw [hheader] at hsome
      cases hsome

/-- Distinct blocks are whole throughout a history exactly when each insertion evicts one block. -/
theorem allWhole_initial_iff (capacity : ℕ) {ops : List (CacheOp Rest Body)}
    (hdistinct : DistinctBlocks ops) :
    (∀ before, before <+: ops → AllWhole before (BlockCache.after capacity before)) ↔
      EachStep EvictsOneBlock BlockCache.apply (.new capacity) ops := by
  induction ops using List.reverseRecOn with
  | nil =>
    refine iff_of_true (fun before hbefore ↦ ?_) trivial
    rw [List.prefix_nil.mp hbefore]
    exact fun write hwrite ↦ absurd hwrite List.not_mem_nil
  | append_singleton before op ih =>
    rw [eachStep_concat_iff, ← ih hdistinct.of_append]
    constructor
    · intro hall
      exact ⟨fun initial hinitial ↦ hall initial (hinitial.trans (List.prefix_append _ _)),
        (allWhole_concat_iff capacity hdistinct (hall before (List.prefix_append _ _))).mp
          (hall _ (List.prefix_refl _))⟩
    · rintro ⟨hall, hevicts⟩ initial hinitial
      rcases List.prefix_concat_iff.mp hinitial with rfl | hinitial
      · have hbefore := hall before (List.prefix_refl _)
        exact (allWhole_concat_iff capacity hdistinct hbefore).mpr hevicts
      · exact hall initial hinitial

/-! ### Without lookups -/

/-- The four maps hold the blocks inserted last, in the order of their insertion. -/
structure InsertionOrder (capacity : ℕ) (ops : List (CacheOp Rest Body))
    (cache : BlockCache Rest Body) : Prop where
  headers : cache.headersByHash.entries = (headerWrites ops).reverse.take capacity
  bodies : cache.bodiesByHash.keys = ((headerWrites ops).reverse.take capacity).map Prod.fst
  numbers : cache.headersByNumber.keys =
    ((headerWrites ops).reverse.take capacity).map fun write ↦ write.2.number
  hashes : cache.hashByNumber.keys =
    ((headerWrites ops).reverse.take capacity).map fun write ↦ write.2.number

theorem take_cons_take {Entry : Type*} (count : ℕ) (entry : Entry) (entries : List Entry) :
    (entry :: entries.take count).take count = (entry :: entries).take count := by
  cases count with
  | zero => rfl
  | succ count =>
    rw [List.take_succ_cons, List.take_succ_cons, List.take_take, Nat.min_eq_left (Nat.le_succ _)]

/-- A call that is no lookup and writes nothing leaves the cache as it is. -/
theorem apply_of_isLookup_eq_false (cache : BlockCache Rest Body) (hop : op.isLookup = false)
    (hheader : op.headerWrite = none) (hbody : op.bodyWrite = none) : cache.apply op = cache := by
  cases op with
  | latest | saveToFile => rfl
  | insert | insertHeader => cases hheader
  | insertBody => cases hbody
  | _ => cases hop

/-- Without lookups the four maps run in lockstep. -/
theorem insertionOrder_after (capacity : ℕ) {ops : List (CacheOp Rest Body)}
    (hdistinct : DistinctBlocks ops) (hlookups : ∀ op ∈ ops, op.isLookup = false) :
    InsertionOrder (BlockCache.effectiveCapacity capacity) ops (BlockCache.after capacity ops) := by
  induction ops using List.reverseRecOn with
  | nil =>
    have hnil : (headerWrites ([] : List (CacheOp Rest Body))).reverse.take
        (BlockCache.effectiveCapacity capacity) = [] := List.take_nil
    constructor <;> rw [hnil] <;> rfl
  | append_singleton before op ih =>
    have hcache := coherentWith_after capacity before
    obtain ⟨hheaders, hbodies, hnumbers, hhashes⟩ := ih hdistinct.of_append
      fun other hother ↦ hlookups other (List.mem_append_left _ hother)
    have hop : op ∈ before ++ [op] := List.mem_append_right _ List.mem_cons_self
    rw [after_concat]
    rcases op.insert_or_none_of_ofWholeBlocks (hdistinct.whole op hop) with
      ⟨hash, header, body, rfl⟩ | ⟨hheader, hbody⟩
    · obtain ⟨h₁, h₂, h₃, h₄⟩ :=
        not_mem_keys_of_fresh hdistinct (hcache.ofInserted hdistinct.of_append)
      have hwrites : (headerWrites (before ++ [.insert hash header body])).reverse =
          (hash, header) :: (headerWrites before).reverse := by
        rw [headerWrites_concat]
        exact List.reverse_append
      constructor <;> rw [hwrites]
      · exact (LruCache.entries_push_of_fresh h₁ header).trans
          (by rw [hheaders, hcache.capacity_headersByHash, take_cons_take])
      · exact (LruCache.keys_push_of_fresh h₂ body).trans
          (by rw [hbodies, hcache.capacity_bodiesByHash, List.map_take, take_cons_take,
            List.map_take, List.map_cons])
      · exact (LruCache.keys_push_of_fresh h₃ header).trans
          (by rw [hnumbers, hcache.capacity_headersByNumber, List.map_take, take_cons_take,
            List.map_take, List.map_cons])
      · exact (LruCache.keys_push_of_fresh h₄ hash).trans
          (by rw [hhashes, hcache.capacity_hashByNumber, List.map_take, take_cons_take,
            List.map_take, List.map_cons])
    · rw [apply_of_isLookup_eq_false _ (hlookups op hop) hheader hbody]
      have hwrites := headerWrites_concat_of_none before hheader
      exact ⟨by rw [hwrites, hheaders], by rw [hwrites, hbodies], by rw [hwrites, hnumbers],
        by rw [hwrites, hhashes]⟩

/-- Maps in lockstep evict one block. -/
theorem InsertionOrder.evictsOneBlock {cache : BlockCache Rest Body}
    (horder : InsertionOrder capacity before cache) : EvictsOneBlock cache op := by
  intro _ hfull
  obtain ⟨hheaders, hbodies, hnumbers, hhashes⟩ := horder
  obtain ⟨write, hlast⟩ := LruCache.exists_getLast?_of_full hfull
  refine ⟨write.1, write.2, hlast, ?_, ?_, ?_⟩
  · rw [hbodies, List.getLast?_map, ← hheaders, hlast, Option.map_some]
  · rw [hnumbers, List.getLast?_map, ← hheaders, hlast, Option.map_some]
  · rw [hhashes, List.getLast?_map, ← hheaders, hlast, Option.map_some]

theorem evictsOneBlock_of_no_lookup (capacity : ℕ) {ops : List (CacheOp Rest Body)}
    (hdistinct : DistinctBlocks ops) (hlookups : ∀ op ∈ ops, op.isLookup = false) :
    EachStep EvictsOneBlock BlockCache.apply (.new capacity) ops := by
  induction ops using List.reverseRecOn with
  | nil => trivial
  | append_singleton before op ih =>
    have hbefore : ∀ other ∈ before, other.isLookup = false := fun other hother ↦
      hlookups other (List.mem_append_left _ hother)
    exact eachStep_concat_iff.mpr ⟨ih hdistinct.of_append hbefore,
      (insertionOrder_after capacity hdistinct.of_append hbefore).evictsOneBlock⟩

end Throughout

/-! ### When blocks are held whole -/

/-- When distinct blocks, inserted whole, are held whole or not at all at every point. Assumes: a
history of such insertions, lookups and readings. The condition is that each insertion that finds
the maps full evicts one block from all four of them, and without lookups it is met. -/
theorem wholeThroughout_iff (capacity : ℕ) (ops : List (CacheOp Rest Body))
    (hdistinct : DistinctBlocks ops) :
    ((∀ before, before <+: ops → AllWhole before (BlockCache.after capacity before)) ↔
        EachStep EvictsOneBlock BlockCache.apply (.new capacity) ops) ∧
      ((∀ op ∈ ops, op.isLookup = false) →
        ∀ before, before <+: ops → AllWhole before (BlockCache.after capacity before)) :=
  ⟨allWhole_initial_iff capacity hdistinct, fun hlookups ↦
    (allWhole_initial_iff capacity hdistinct).mpr
      (evictsOneBlock_of_no_lookup capacity hdistinct hlookups)⟩

/-- Three blocks in a cache of two, without lookups. -/
theorem wholeThroughout_of_inserts :
    let ops : List (CacheOp UInt8 String) :=
      [.insert (.repeatByte 1) ⟨.repeatByte 0, 1, 12, 1⟩ "first",
        .insert (.repeatByte 2) ⟨.repeatByte 1, 2, 24, 2⟩ "second",
        .insert (.repeatByte 3) ⟨.repeatByte 2, 3, 36, 3⟩ "third"]
    AllWhole ops (BlockCache.after 2 ops) :=
  (wholeThroughout_iff 2 _ ⟨by decide, by decide, by decide⟩).2 (by decide) _ (List.prefix_refl _)

/-- A lookup of the first block's header by hash keeps its header when the third block arrives, in
one map; its body is evicted. -/
theorem not_whole_after_lookup :
    let ops : List (CacheOp UInt8 String) :=
      [.insert (.repeatByte 1) ⟨.repeatByte 0, 1, 12, 1⟩ "first",
        .insert (.repeatByte 2) ⟨.repeatByte 1, 2, 24, 2⟩ "second",
        .getHeaderByHash (.repeatByte 1),
        .insert (.repeatByte 3) ⟨.repeatByte 2, 3, 36, 3⟩ "third"]
    DistinctBlocks ops ∧ ¬ AllWhole ops (BlockCache.after 2 ops) :=
  ⟨⟨by decide, by decide, by decide⟩, fun hwhole ↦
    absurd ((hwhole (.repeatByte 1, ⟨.repeatByte 0, 1, 12, 1⟩) (by decide)).body_iff.mp (by decide))
      (by decide)⟩

end SentryNode
