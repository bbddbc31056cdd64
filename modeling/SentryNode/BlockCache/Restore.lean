import Mathlib.Data.List.DropRight
import SentryNode.BlockCache.Drained
import SentryNode.BlockCache.Latest

/-!
# The cache restored from its file

Loading inserts the blocks of the file from the lowest number up. Blocks with distinct numbers and
distinct hashes that fit the maps do not displace each other, so the restored cache holds exactly
the blocks that were read (`holdsExactly_insertAll`), and draining it gives them back in the same
order (`drainBlocks_insertAll`).

The count in front of the file has 32 bits. With fewer blocks than that, saving and loading is a
round trip (`loadFromFile_saveToFile`), and a file cut short by an interrupted save restores the
blocks whose entries are whole (`loadFromFile_cut`).

The number of entries read is clamped to the configured capacity, and they are read from the lowest
number up: `loadFromFile_newest_iff` says when the newest blocks are restored all the same.
-/

set_option autoImplicit false
set_option relaxedAutoImplicit false

namespace SentryNode

open Library

variable {Rest Body : Type}

/-! ### Inserting distinct blocks -/

theorem le_effectiveCapacity {count capacity : ℕ} (hcount : count ≤ capacity) :
    count ≤ BlockCache.effectiveCapacity capacity := by
  unfold BlockCache.effectiveCapacity
  split_ifs <;> omega

theorem Ascending.nodup_numbers {blocks : List (CachedBlock Rest Body)}
    (hascending : Ascending blocks) : (blocks.map fun block ↦ block.header.number).Nodup :=
  List.pairwise_map.mpr (hascending.imp fun hlt heq ↦ Nat.ne_of_lt hlt (congrArg _ heq))

theorem Ascending.eq_of_number_eq {blocks : List (CachedBlock Rest Body)}
    (hascending : Ascending blocks) {first second : CachedBlock Rest Body}
    (hfirst : first ∈ blocks) (hsecond : second ∈ blocks)
    (hnumber : first.header.number = second.header.number) : first = second :=
  List.inj_on_of_nodup_map hascending.nodup_numbers hfirst hsecond hnumber

/-- The insertion of a list of blocks is a list of insertions into each map. -/
theorem insertAll_eq (cache : BlockCache Rest Body) (blocks : List (CachedBlock Rest Body)) :
    cache.insertAll blocks =
      { headersByHash := cache.headersByHash.pushAll
          (blocks.map fun block ↦ (block.hash, block.header))
        headersByNumber := cache.headersByNumber.pushAll
          (blocks.map fun block ↦ (block.header.number, block.header))
        hashByNumber := cache.hashByNumber.pushAll
          (blocks.map fun block ↦ (block.header.number, block.hash))
        bodiesByHash := cache.bodiesByHash.pushAll
          (blocks.map fun block ↦ (block.hash, block.body))
        capacity := cache.capacity } := by
  induction blocks generalizing cache with
  | nil => rfl
  | cons block blocks ih => exact ih (cache.insert block.hash block.header block.body)

/-- The insertion of a list of blocks is a history of insertions. -/
theorem insertAll_new (capacity : ℕ) (blocks : List (CachedBlock Rest Body)) :
    (BlockCache.new capacity).insertAll blocks = BlockCache.after capacity
      (blocks.map fun block ↦ .insert block.hash block.header block.body) := by
  rw [BlockCache.after, run, List.foldl_map]
  rfl

/-- The cache holds these blocks and nothing else, in each of its maps. -/
structure HoldsExactly (cache : BlockCache Rest Body) (held : CachedBlock Rest Body → Prop) :
    Prop where
  headersByHash : ∀ hash header, cache.headersByHash.peek hash = some header ↔
    ∃ block, held block ∧ block.hash = hash ∧ block.header = header
  headersByNumber : ∀ number header, cache.headersByNumber.peek number = some header ↔
    ∃ block, held block ∧ block.header.number = number ∧ block.header = header
  hashByNumber : ∀ number hash, cache.hashByNumber.peek number = some hash ↔
    ∃ block, held block ∧ block.header.number = number ∧ block.hash = hash
  bodiesByHash : ∀ hash body, cache.bodiesByHash.peek hash = some body ↔
    ∃ block, held block ∧ block.hash = hash ∧ block.body = body

/-- The entries of an empty map after distinct blocks that fit have been pushed. -/
theorem peek_pushAll_new {K V : Type} [DecidableEq K] {capacity : ℕ} (hcapacity : 0 < capacity)
    {blocks : List (CachedBlock Rest Body)} {keyOf : CachedBlock Rest Body → K}
    {valueOf : CachedBlock Rest Body → V} (hkeys : (blocks.map keyOf).Nodup)
    (hfits : blocks.length ≤ capacity) (key : K) (value : V) :
    ((LruCache.new capacity hcapacity).pushAll
        (blocks.map fun block ↦ (keyOf block, valueOf block))).peek key = some value ↔
      ∃ block, block ∈ blocks ∧ keyOf block = key ∧ valueOf block = value := by
  have hnodup : ((blocks.map fun block ↦ (keyOf block, valueOf block)).map Prod.fst).Nodup := by
    rwa [List.map_map]
  have hlength : (blocks.map fun block ↦ (keyOf block, valueOf block)).length ≤ capacity := by
    rwa [List.length_map]
  have hpushed : ∀ block ∈ blocks, ((LruCache.new capacity hcapacity).pushAll
      (blocks.map fun block ↦ (keyOf block, valueOf block))).peek (keyOf block) =
        some (valueOf block) := fun block hblock ↦
    LruCache.peek_pushAll_of_fits hnodup hlength (List.mem_map_of_mem hblock)
  constructor
  · intro hpeek
    rcases LruCache.mem_keys_of_mem_pushAll (LruCache.mem_keys_iff.mpr ⟨value, hpeek⟩) with
      hbefore | hpair
    · exact absurd hbefore List.not_mem_nil
    · rw [List.map_map] at hpair
      obtain ⟨block, hblock, rfl⟩ := List.mem_map.mp hpair
      exact ⟨block, hblock, rfl, Option.some.inj ((hpushed block hblock).symm.trans hpeek)⟩
  · rintro ⟨block, hblock, rfl, rfl⟩
    exact hpushed block hblock

theorem holdsExactly_insertAll {capacity : ℕ} {blocks : List (CachedBlock Rest Body)}
    (hascending : Ascending blocks) (hhashes : (blocks.map CachedBlock.hash).Nodup)
    (hfits : blocks.length ≤ BlockCache.effectiveCapacity capacity) :
    HoldsExactly ((BlockCache.new capacity).insertAll blocks) (· ∈ blocks) := by
  rw [insertAll_eq]
  exact {
    headersByHash := peek_pushAll_new _ hhashes hfits
    headersByNumber := peek_pushAll_new _ hascending.nodup_numbers hfits
    hashByNumber := peek_pushAll_new _ hascending.nodup_numbers hfits
    bodiesByHash := peek_pushAll_new _ hhashes hfits }

/-- A cache that holds exactly some blocks is drained of them. -/
theorem drainBlocks_insertAll {capacity : ℕ} {blocks : List (CachedBlock Rest Body)}
    (hascending : Ascending blocks) (hhashes : (blocks.map CachedBlock.hash).Nodup)
    (hfits : blocks.length ≤ BlockCache.effectiveCapacity capacity) :
    ((BlockCache.new capacity).insertAll blocks).drainBlocks = blocks := by
  have hholds := holdsExactly_insertAll hascending hhashes hfits
  have hcache := coherentWith_after capacity
    (blocks.map fun block ↦ CacheOp.insert block.hash block.header block.body)
  rw [← insertAll_new] at hcache
  refine List.Perm.eq_of_pairwise (fun first second hfirst hsecond hlt hgt ↦ ?_)
    hcache.ascending_drainBlocks hascending ?_
  · exact absurd hlt (Nat.lt_asymm hgt)
  · refine (List.perm_ext_iff_of_nodup hcache.nodup_drainBlocks (hhashes.of_map _)).mpr
      fun block ↦ ?_
    rw [mem_drainBlocks_iff]
    constructor
    · rintro ⟨number, hhash, hheader, hbody⟩
      obtain ⟨first, hfirst, hnumber₁, hhashEq⟩ := (hholds.hashByNumber _ _).mp hhash
      obtain ⟨second, hsecond, hnumber₂, hheaderEq⟩ := (hholds.headersByNumber _ _).mp hheader
      obtain ⟨third, hthird, hhashEq', hbodyEq⟩ := (hholds.bodiesByHash _ _).mp hbody
      obtain rfl := hascending.eq_of_number_eq hfirst hsecond (hnumber₁.trans hnumber₂.symm)
      obtain rfl := List.inj_on_of_nodup_map hhashes hfirst hthird (hhashEq.trans hhashEq'.symm)
      obtain ⟨hash, header, body⟩ := block
      obtain ⟨hash', header', body'⟩ := first
      dsimp only at hhashEq hheaderEq hbodyEq
      rwa [← hhashEq, ← hheaderEq, ← hbodyEq]
    · exact fun hblock ↦ ⟨block.header.number,
        (hholds.hashByNumber _ _).mpr ⟨block, hblock, rfl, rfl⟩,
        (hholds.headersByNumber _ _).mpr ⟨block, hblock, rfl, rfl⟩,
        (hholds.bodiesByHash _ _).mpr ⟨block, hblock, rfl, rfl⟩⟩

/-! ### A whole file -/

section Whole

variable {codec : BlockRlp Rest Body}

/-- What is loaded of a file: the storable blocks in front of one that is not. -/
theorem loadFromFile_append (hcodec : codec.Inverts) (cache : BlockCache Rest Body)
    {front back : List (CachedBlock Rest Body)} (hfront : ∀ block ∈ front, Storable codec block)
    (hback : ∃ error, readBlockEntry codec (back.flatMap (entryBytes codec)) = .error error) :
    cache.loadFromFile codec (some (fileBytes codec (front ++ back))) =
      (.ok (), cache.insertAll
        (front.take (min ((front ++ back).length % 2 ^ 32) cache.capacity))) := by
  have hreads : ReadsBack (entryBytes codec) (readBlockEntry codec) front :=
    fun block hblock ↦ reads_entryBytes hcodec (hfront block hblock)
  rw [fileBytes, loadFromFile_of_count, List.flatMap_append, readRecords_append hreads hback]

theorem loadFromFile_fileBytes (hcodec : codec.Inverts) (cache : BlockCache Rest Body)
    {blocks : List (CachedBlock Rest Body)} (hstorable : ∀ block ∈ blocks, Storable codec block) :
    cache.loadFromFile codec (some (fileBytes codec blocks)) =
      (.ok (), cache.insertAll (blocks.take (min (blocks.length % 2 ^ 32) cache.capacity))) := by
  have hback : ∃ error, readBlockEntry codec
      (([] : List (CachedBlock Rest Body)).flatMap (entryBytes codec)) = .error error :=
    ⟨_, readBlockEntry_nil codec⟩
  have hloaded := loadFromFile_append hcodec cache hstorable hback
  rwa [List.append_nil] at hloaded

/-- The clamp of a load lets every block pass when there are no more of them than the count and the
capacity allow. -/
theorem take_clamp_eq {capacity : ℕ} (hcapacity : 1 ≤ capacity)
    {blocks part : List (CachedBlock Rest Body)} (hcount : blocks.length < 2 ^ 32)
    (hfits : blocks.length ≤ BlockCache.effectiveCapacity capacity) (hpart : part.Sublist blocks) :
    part.take (min (blocks.length % 2 ^ 32)
      (BlockCache.new capacity : BlockCache Rest Body).capacity) = part := by
  rw [BlockCache.effectiveCapacity, if_neg (Nat.ne_of_gt hcapacity)] at hfits
  rw [Nat.mod_eq_of_lt hcount]
  exact List.take_of_length_le
    (Nat.le_trans hpart.length_le (Nat.le_min_of_le_of_le (Nat.le_refl _) hfits))

/-- A cache that gives back the blocks of another one, and the same file. -/
structure RestoresAll (codec : BlockRlp Rest Body) (saved restored : BlockCache Rest Body) :
    Prop where
  drained : restored.drainBlocks = saved.drainBlocks
  header_by_hash : ∀ block ∈ saved.drainBlocks,
    (restored.getHeaderByHash block.hash).1 = some block.header
  header_by_number : ∀ block ∈ saved.drainBlocks,
    (restored.getHeaderByNumber block.header.number).1 = some block.header
  body_by_hash : ∀ block ∈ saved.drainBlocks,
    (restored.getBodyByHash block.hash).1 = some block.body
  saved_again : restored.saveToFile codec = saved.saveToFile codec

/-- Saving and loading is a round trip. Assumes: RLP decoding undoes encoding; a positive configured
capacity; a history that inserts headers under their true hashes, without a collision; and lengths
and a count that fit the file. -/
theorem loadFromFile_saveToFile (hcodec : codec.Inverts) (hashOf : Header Rest → B256)
    (capacity : ℕ) (hcapacity : 1 ≤ capacity) (ops : List (CacheOp Rest Body))
    (htrue : TrueHashes hashOf ops) (hcollision : CollisionFree hashOf ops)
    (hstorable : ∀ block ∈ (BlockCache.after capacity ops).drainBlocks, Storable codec block)
    (hcount : (BlockCache.after capacity ops).drainBlocks.length < 2 ^ 32) :
    let saved := BlockCache.after capacity ops
    let loaded := (BlockCache.new capacity).loadFromFile codec (some (saved.saveToFile codec))
    loaded.1 = .ok () ∧ RestoresAll codec saved loaded.2 := by
  intro saved loaded
  have hcache := coherentWith_after capacity ops
  have hfits := length_drainBlocks_le hcache
  have hhashes := hcache.nodup_hashes_drainBlocks htrue hcollision
  have hloaded : loaded = (.ok (), (BlockCache.new capacity).insertAll saved.drainBlocks) := by
    rw [← take_clamp_eq hcapacity hcount hfits (List.Sublist.refl _)]
    exact loadFromFile_fileBytes hcodec _ hstorable
  have hholds := holdsExactly_insertAll hcache.ascending_drainBlocks hhashes hfits
  have hdrained := drainBlocks_insertAll hcache.ascending_drainBlocks hhashes hfits
  rw [hloaded]
  refine ⟨rfl, ?_⟩
  exact {
    drained := hdrained
    header_by_hash := fun block hblock ↦
      (hholds.headersByHash _ _).mpr ⟨block, hblock, rfl, rfl⟩
    header_by_number := fun block hblock ↦
      (hholds.headersByNumber _ _).mpr ⟨block, hblock, rfl, rfl⟩
    body_by_hash := fun block hblock ↦ (hholds.bodiesByHash _ _).mpr ⟨block, hblock, rfl, rfl⟩
    saved_again := by rw [BlockCache.saveToFile, hdrained, BlockCache.saveToFile] }

/-- Two blocks, inserted whole and in parts, with a lookup in between. -/
theorem loadFromFile_saveToFile_of_two :
    let saved : BlockCache Unit UInt8 := .after 2
      [.insert (.repeatByte 12) ⟨.repeatByte 0, 1, 12, ()⟩ 1, .getHeaderByNumber 1,
        .insertHeader (.repeatByte 24) ⟨.repeatByte 12, 2, 24, ()⟩,
        .insertBody (.repeatByte 24) 2]
    RestoresAll fixedRlp saved
      ((BlockCache.new 2).loadFromFile fixedRlp (some (saved.saveToFile fixedRlp))).2 :=
  (loadFromFile_saveToFile fixedRlp_inverts (fun header ↦ .repeatByte header.timestamp.toUInt8) 2
    (by decide) _ (by decide) (by decide) (fun block _ ↦ storable_fixedRlp block) (by decide)).2

end Whole

/-! ### More blocks than the count can tell -/

section Many

/-- A block number as a hash. -/
def numberHash (number : UInt64) : B256 := ⟨leBytes 32 number.toNat, length_leBytes 32 _⟩

theorem numberHash_injective : Function.Injective numberHash := by
  intro first second hhash
  have hvalue : ∀ number : UInt64, ofLeBytes (numberHash number).bytes = number.toNat :=
    fun number ↦ ofLeBytes_leBytes_of_lt (Nat.lt_trans number.toNat_lt (by decide))
  rw [← UInt64.toNat_inj, ← hvalue first, ← hvalue second, hhash]

/-- Blocks numbered from zero. -/
def numberedBlocks (count : ℕ) : List (CachedBlock Unit UInt8) :=
  (List.range count).map fun index ↦
    { hash := numberHash (.ofNat index), header := ⟨.repeatByte 0, .ofNat index, 0, ()⟩, body := 0 }

/-- The history that inserts them. -/
def numberedOps (count : ℕ) : List (CacheOp Unit UInt8) :=
  (numberedBlocks count).map fun block ↦ .insert block.hash block.header block.body

theorem ascending_numberedBlocks {count : ℕ} (hcount : count ≤ 2 ^ 64) :
    Ascending (numberedBlocks count) := by
  refine List.pairwise_map.mpr (List.pairwise_lt_range.imp_of_mem fun hfirst hsecond hlt ↦ ?_)
  rw [List.mem_range] at hfirst hsecond
  show (UInt64.ofNat _).toNat < (UInt64.ofNat _).toNat
  rwa [UInt64.toNat_ofNat_of_lt' (Nat.lt_of_lt_of_le hfirst hcount),
    UInt64.toNat_ofNat_of_lt' (Nat.lt_of_lt_of_le hsecond hcount)]

theorem mem_headerWrites_numberedOps {count : ℕ} {write : B256 × Header Unit}
    (hwrite : write ∈ headerWrites (numberedOps count)) :
    write.1 = numberHash write.2.number ∧ write.2 = ⟨.repeatByte 0, write.2.number, 0, ()⟩ := by
  obtain ⟨op, hop, hheader⟩ := List.mem_filterMap.mp hwrite
  obtain ⟨block, hblock, rfl⟩ := List.mem_map.mp hop
  obtain ⟨index, -, rfl⟩ := List.mem_map.mp hblock
  obtain rfl := Option.some.inj hheader
  exact ⟨rfl, rfl⟩

theorem trueHashes_numberedOps (count : ℕ) :
    TrueHashes (fun header ↦ numberHash header.number) (numberedOps count) :=
  fun _ hwrite ↦ (mem_headerWrites_numberedOps hwrite).1

theorem collisionFree_numberedOps (count : ℕ) :
    CollisionFree (fun header ↦ numberHash header.number) (numberedOps count) := by
  intro first hfirst second hsecond hhash
  rw [(mem_headerWrites_numberedOps hfirst).2, (mem_headerWrites_numberedOps hsecond).2,
    numberHash_injective hhash]

theorem drainBlocks_numberedOps {count : ℕ} (hcount : count ≤ 2 ^ 64) :
    (BlockCache.after count (numberedOps count)).drainBlocks = numberedBlocks count := by
  have hascending := ascending_numberedBlocks hcount
  have hhashes : ((numberedBlocks count).map CachedBlock.hash).Nodup := by
    have hmap : (numberedBlocks count).map CachedBlock.hash =
        ((numberedBlocks count).map fun block ↦ block.header.number).map numberHash := by
      rw [numberedBlocks, List.map_map, List.map_map, List.map_map]
      rfl
    rw [hmap]
    exact hascending.nodup_numbers.map numberHash_injective
  rw [numberedOps, ← insertAll_new]
  exact drainBlocks_insertAll hascending hhashes
    (le_effectiveCapacity (by rw [numberedBlocks, List.length_map, List.length_range]))

/-- A multiple of `2 ^ 32` blocks is counted as zero, and nothing is loaded. -/
theorem loadFromFile_numberedOps {count : ℕ} (hcount : count ≤ 2 ^ 64)
    (hwraps : count % 2 ^ 32 = 0) :
    (BlockCache.new count).loadFromFile fixedRlp
        (some ((BlockCache.after count (numberedOps count)).saveToFile fixedRlp)) =
      (.ok (), .new count) := by
  rw [BlockCache.saveToFile, loadFromFile_fileBytes fixedRlp_inverts _
      fun block _ ↦ storable_fixedRlp block, drainBlocks_numberedOps hcount, numberedBlocks,
    List.length_map, List.length_range, hwraps, Nat.zero_min, List.take_zero]
  rfl

theorem not_restoresAll_numberedOps {count : ℕ} (hcount : count ≤ 2 ^ 64)
    (hwraps : count % 2 ^ 32 = 0) (hpos : 0 < count) :
    ¬ RestoresAll fixedRlp (BlockCache.after count (numberedOps count))
      ((BlockCache.new count).loadFromFile fixedRlp
        (some ((BlockCache.after count (numberedOps count)).saveToFile fixedRlp))).2 := by
  intro hrestores
  have hdrained := hrestores.drained
  rw [loadFromFile_numberedOps hcount hwraps, drainBlocks_numberedOps hcount] at hdrained
  have hlength := congrArg List.length hdrained
  rw [numberedBlocks, List.length_map, List.length_range] at hlength
  exact absurd hlength (Nat.ne_of_lt hpos)

/-- The round trip of `2 ^ 32` blocks restores none of them. -/
theorem loadFromFile_loses_many :
    let ops := numberedOps (2 ^ 32)
    let saved := BlockCache.after (2 ^ 32) ops
    TrueHashes (fun header ↦ numberHash header.number) ops ∧
      CollisionFree (fun header ↦ numberHash header.number) ops ∧
      (∀ block ∈ saved.drainBlocks, Storable fixedRlp block) ∧
      ¬ RestoresAll fixedRlp saved ((BlockCache.new (2 ^ 32)).loadFromFile fixedRlp
        (some (saved.saveToFile fixedRlp))).2 :=
  ⟨trueHashes_numberedOps _, collisionFree_numberedOps _, fun block _ ↦ storable_fixedRlp block,
    not_restoresAll_numberedOps (by decide) (Nat.mod_self _) (by decide)⟩

end Many

/-! ### A file cut short -/

section Cut

variable {codec : BlockRlp Rest Body}

/-- The entry of the block lies whole within the first `length` bytes of the file of some blocks. -/
def EndsWithin (codec : BlockRlp Rest Body) (blocks : List (CachedBlock Rest Body)) (length : ℕ)
    (block : CachedBlock Rest Body) : Prop :=
  ∃ before after, blocks = before ++ block :: after ∧
    4 + (before.flatMap (entryBytes codec)).length + (entryBytes codec block).length ≤ length

theorem mem_wholeWithin_entries_iff {blocks : List (CachedBlock Rest Body)} {length : ℕ}
    (hlength : 4 ≤ length) {block : CachedBlock Rest Body} :
    block ∈ wholeWithin (entryBytes codec) (length - 4) blocks ↔
      EndsWithin codec blocks length block := by
  rw [mem_wholeWithin_iff]
  refine exists_congr fun before ↦ exists_congr fun after ↦ and_congr_right fun _ ↦ ?_
  omega

/-- What is loaded of a file of storable blocks that is cut behind its count. -/
theorem loadFromFile_take (hcodec : codec.Inverts) (cache : BlockCache Rest Body)
    {blocks : List (CachedBlock Rest Body)} (hstorable : ∀ block ∈ blocks, Storable codec block)
    {length : ℕ} (hlength : 4 ≤ length) :
    cache.loadFromFile codec (some ((fileBytes codec blocks).take length)) =
      (.ok (), cache.insertAll ((wholeWithin (entryBytes codec) (length - 4) blocks).take
        (min (blocks.length % 2 ^ 32) cache.capacity))) := by
  have hreads : ReadsBack (entryBytes codec) (readBlockEntry codec) blocks :=
    fun block hblock ↦ reads_entryBytes hcodec (hstorable block hblock)
  rw [fileBytes, List.take_append, length_leBytes,
    List.take_of_length_le (by rwa [length_leBytes]), loadFromFile_of_count,
    readRecords_take hreads ⟨_, readBlockEntry_nil codec⟩]

/-- A file cut short restores the blocks whose entries are whole, and a file without a whole count
is refused. Assumes: RLP decoding undoes encoding; a positive configured capacity; a history that
inserts headers under their true hashes, without a collision; and lengths and a count that fit the
file. -/
theorem loadFromFile_cut (hcodec : codec.Inverts) (hashOf : Header Rest → B256)
    (capacity : ℕ) (hcapacity : 1 ≤ capacity) (ops : List (CacheOp Rest Body))
    (htrue : TrueHashes hashOf ops) (hcollision : CollisionFree hashOf ops)
    (hstorable : ∀ block ∈ (BlockCache.after capacity ops).drainBlocks, Storable codec block)
    (hcount : (BlockCache.after capacity ops).drainBlocks.length < 2 ^ 32) (length : ℕ) :
    let saved := BlockCache.after capacity ops
    let loaded := (BlockCache.new capacity).loadFromFile codec
      (some ((saved.saveToFile codec).take length))
    (length < 4 → loaded = (.error .unexpectedEof, .new capacity)) ∧
      (4 ≤ length → loaded.1 = .ok () ∧
        HoldsExactly loaded.2 (EndsWithin codec saved.drainBlocks length)) := by
  intro saved loaded
  have hcache := coherentWith_after capacity ops
  have hfits := length_drainBlocks_le hcache
  have hhashes := hcache.nodup_hashes_drainBlocks htrue hcollision
  refine ⟨fun hshort ↦ loadFromFile_of_short codec _ ?_, fun hlength ↦ ?_⟩
  · exact Nat.lt_of_le_of_lt (List.length_take_le _ _) hshort
  have hsublist := wholeWithin_sublist (entryBytes codec) (length - 4) saved.drainBlocks
  have hloaded : loaded = (.ok (), (BlockCache.new capacity).insertAll
      (wholeWithin (entryBytes codec) (length - 4) saved.drainBlocks)) := by
    rw [← take_clamp_eq hcapacity hcount hfits hsublist]
    exact loadFromFile_take hcodec _ hstorable hlength
  have hholds := holdsExactly_insertAll (hcache.ascending_drainBlocks.sublist hsublist)
    (hhashes.sublist (hsublist.map _)) (Nat.le_trans hsublist.length_le hfits)
  rw [hloaded]
  refine ⟨rfl, ?_⟩
  rwa [funext fun block ↦ propext (mem_wholeWithin_entries_iff hlength)] at hholds

/-- The file of two blocks, cut within the second entry. -/
theorem loadFromFile_cut_of_two :
    let saved : BlockCache Unit UInt8 := .after 2
      [.insert (.repeatByte 12) ⟨.repeatByte 0, 1, 12, ()⟩ 1,
        .insert (.repeatByte 24) ⟨.repeatByte 12, 2, 24, ()⟩ 2]
    HoldsExactly ((BlockCache.new 2).loadFromFile fixedRlp
        (some ((saved.saveToFile fixedRlp).take 100))).2
      (EndsWithin fixedRlp saved.drainBlocks 100) :=
  ((loadFromFile_cut fixedRlp_inverts (fun header ↦ .repeatByte header.timestamp.toUInt8) 2
    (by decide) _ (by decide) (by decide) (fun block _ ↦ storable_fixedRlp block) (by decide)
    100).2 (by decide)).2

/-- Every block lies whole within the whole file. -/
theorem endsWithin_length {blocks : List (CachedBlock Rest Body)}
    {block : CachedBlock Rest Body} (hblock : block ∈ blocks) :
    EndsWithin codec blocks (fileBytes codec blocks).length block := by
  obtain ⟨before, after, rfl⟩ := List.append_of_mem hblock
  refine ⟨before, after, rfl, ?_⟩
  rw [fileBytes, List.length_append, length_leBytes, List.flatMap_append, List.flatMap_cons,
    List.length_append, List.length_append]
  omega

theorem not_holdsExactly_numberedOps {count : ℕ} (hcount : count ≤ 2 ^ 64)
    (hwraps : count % 2 ^ 32 = 0) (hpos : 0 < count) :
    ¬ HoldsExactly ((BlockCache.new count).loadFromFile fixedRlp
        (some ((BlockCache.after count (numberedOps count)).saveToFile fixedRlp))).2
      (EndsWithin fixedRlp (BlockCache.after count (numberedOps count)).drainBlocks
        ((BlockCache.after count (numberedOps count)).saveToFile fixedRlp).length) := by
  intro hholds
  rw [loadFromFile_numberedOps hcount hwraps, BlockCache.saveToFile,
    drainBlocks_numberedOps hcount] at hholds
  have hblock : ⟨numberHash 0, ⟨.repeatByte 0, 0, 0, ()⟩, 0⟩ ∈ numberedBlocks count :=
    List.mem_map.mpr ⟨0, List.mem_range.mpr hpos, rfl⟩
  have hpeek := (hholds.headersByHash _ _).mpr ⟨_, endsWithin_length hblock, rfl, rfl⟩
  cases hpeek

/-- The whole file of `2 ^ 32` blocks restores none of them. -/
theorem loadFromFile_cut_loses_many :
    let ops := numberedOps (2 ^ 32)
    let saved := BlockCache.after (2 ^ 32) ops
    let length := (saved.saveToFile fixedRlp).length
    TrueHashes (fun header ↦ numberHash header.number) ops ∧
      CollisionFree (fun header ↦ numberHash header.number) ops ∧
      (∀ block ∈ saved.drainBlocks, Storable fixedRlp block) ∧ 4 ≤ length ∧
      ¬ HoldsExactly ((BlockCache.new (2 ^ 32)).loadFromFile fixedRlp
          (some ((saved.saveToFile fixedRlp).take length))).2
        (EndsWithin fixedRlp saved.drainBlocks length) := by
  intro ops saved length
  refine ⟨trueHashes_numberedOps _, collisionFree_numberedOps _,
    fun block _ ↦ storable_fixedRlp block, ?_, ?_⟩
  · show 4 ≤ (fileBytes fixedRlp saved.drainBlocks).length
    rw [fileBytes, List.length_append, length_leBytes]
    exact Nat.le_add_right _ _
  · rw [List.take_length]
    exact not_holdsExactly_numberedOps (by decide) (Nat.mod_self _) (by decide)

end Cut

/-! ### The newest blocks -/

section Newest

variable {codec : BlockRlp Rest Body}

/-- The blocks of a file that are loaded under a configured capacity. -/
def loadable (codec : BlockRlp Rest Body) (capacity : ℕ) (blocks : List (CachedBlock Rest Body)) :
    List (CachedBlock Rest Body) :=
  (blocks.takeWhile fun block ↦ Storable codec block).take (min (blocks.length % 2 ^ 32) capacity)

theorem loadFromFile_loadable (hcodec : codec.Inverts) (hself : codec.SelfDelimiting)
    (cache : BlockCache Rest Body) (blocks : List (CachedBlock Rest Body)) :
    (cache.loadFromFile codec (some (fileBytes codec blocks))).2 =
      cache.insertAll (loadable codec cache.capacity blocks) := by
  have hfront : ∀ block ∈ blocks.takeWhile fun block ↦ Storable codec block,
      Storable codec block := fun block hblock ↦ by simpa using List.mem_takeWhile_imp hblock
  have hback : ∃ error, readBlockEntry codec
      ((blocks.dropWhile fun block ↦ Storable codec block).flatMap (entryBytes codec)) =
        .error error := by
    cases hdrop : blocks.dropWhile fun block ↦ Storable codec block with
    | nil => exact ⟨_, readBlockEntry_nil codec⟩
    | cons block rest =>
      have hne : (blocks.dropWhile fun block ↦ Storable codec block) ≠ [] := by
        rw [hdrop]
        exact List.cons_ne_nil _ _
      have hblock : ¬ Storable codec block := by
        simpa [hdrop] using List.head_dropWhile_not _ hne
      rw [List.flatMap_cons]
      exact ⟨_, readBlockEntry_of_not_storable hcodec hself hblock _⟩
  have hloaded := loadFromFile_append hcodec cache hfront hback
  rw [List.takeWhile_append_dropWhile] at hloaded
  rw [hloaded, loadable]

theorem loadable_isPrefix (codec : BlockRlp Rest Body) (capacity : ℕ)
    (blocks : List (CachedBlock Rest Body)) : loadable codec capacity blocks <+: blocks :=
  List.IsPrefix.trans (List.take_prefix _ _) (List.takeWhile_prefix _)

/-- The whole file is loaded when the count and the lengths fit it and the capacity is enough. -/
theorem loadable_eq_self_iff {capacity : ℕ} {blocks : List (CachedBlock Rest Body)} :
    loadable codec capacity blocks = blocks ↔
      blocks.length ≤ capacity ∧ blocks.length < 2 ^ 32 ∧
        ∀ block ∈ blocks, Storable codec block := by
  constructor
  · intro hall
    have hlength : blocks.length ≤ min (blocks.length % 2 ^ 32) capacity := by
      have htake := List.length_take_le (min (blocks.length % 2 ^ 32) capacity)
        (blocks.takeWhile fun block ↦ Storable codec block)
      rwa [← loadable, hall] at htake
    obtain ⟨hcount, hcapacity⟩ := Nat.le_min.mp hlength
    refine ⟨hcapacity, Nat.lt_of_le_of_lt hcount (Nat.mod_lt _ (by omega)), fun block hblock ↦ ?_⟩
    rw [← hall] at hblock
    simpa using List.mem_takeWhile_imp (List.mem_of_mem_take hblock)
  · rintro ⟨hcapacity, hcount, hstorable⟩
    have htakeWhile : (blocks.takeWhile fun block ↦ Storable codec block) = blocks :=
      List.takeWhile_eq_self_iff.mpr fun block hblock ↦ by simpa using hstorable block hblock
    rw [loadable, htakeWhile, Nat.mod_eq_of_lt hcount, Nat.min_eq_left hcapacity, List.take_length]

/-- The newest blocks of a file that fit a capacity are what a cache holds, and the newest one is
the latest. -/
structure RestoresNewest (blocks : List (CachedBlock Rest Body)) (capacity : ℕ)
    (restored : BlockCache Rest Body) : Prop where
  holds : HoldsExactly restored
    (· ∈ blocks.rtake (min blocks.length (BlockCache.effectiveCapacity capacity)))
  latest : ∀ block, blocks.getLast? = some block →
    restored.latest = some (block.hash, block.header)

/-- The block with the highest number of those held is the latest one. -/
theorem HoldsExactly.latest {cache : BlockCache Rest Body}
    {held : CachedBlock Rest Body → Prop} (hholds : HoldsExactly cache held)
    {block : CachedBlock Rest Body} (hblock : held block)
    (hhighest : ∀ other, held other → other.header.number.toNat ≤ block.header.number.toNat) :
    cache.latest = some (block.hash, block.header) := by
  have hhash := (hholds.hashByNumber _ _).mpr ⟨block, hblock, rfl, rfl⟩
  refine latest_eq_some_iff.mpr ⟨block.header.number, ⟨?_, fun number hnumber ↦ ?_⟩, hhash,
    (hholds.headersByNumber _ _).mpr ⟨block, hblock, rfl, rfl⟩⟩
  · exact LruCache.mem_keys_iff.mpr ⟨_, hhash⟩
  · obtain ⟨hash, hpeek⟩ := LruCache.mem_keys_iff.mp hnumber
    obtain ⟨other, hother, rfl, -⟩ := (hholds.hashByNumber _ _).mp hpeek
    exact hhighest other hother

/-- The last of some ascending blocks is above the others. -/
theorem Ascending.le_getLast {blocks : List (CachedBlock Rest Body)}
    (hascending : Ascending blocks) {block : CachedBlock Rest Body}
    (hlast : blocks.getLast? = some block) :
    ∀ other ∈ blocks, other.header.number.toNat ≤ block.header.number.toNat := by
  obtain ⟨front, rfl⟩ := List.getLast?_eq_some_iff.mp hlast
  intro other hother
  rcases List.mem_append.mp hother with hfront | hself
  · exact Nat.le_of_lt ((List.pairwise_append.mp hascending).2.2 other hfront block
      List.mem_cons_self)
  · rw [List.mem_singleton.mp hself]

/-- A beginning of an ascending list that holds the last number is the whole list. -/
theorem Ascending.eq_of_getLast_mem {blocks loaded : List (CachedBlock Rest Body)}
    (hascending : Ascending blocks) (hloaded : loaded <+: blocks) {block : CachedBlock Rest Body}
    (hlast : blocks.getLast? = some block)
    (hmem : block.header.number ∈ loaded.map fun block ↦ block.header.number) :
    loaded = blocks := by
  obtain ⟨back, rfl⟩ := hloaded
  rcases List.eq_nil_or_concat back with rfl | ⟨front, last, rfl⟩
  · rw [List.append_nil]
  · rw [List.concat_eq_append, ← List.append_assoc, List.getLast?_concat, Option.some_inj] at hlast
    subst hlast
    obtain ⟨other, hother, hnumber⟩ := List.mem_map.mp hmem
    have hlt := (List.pairwise_append.mp hascending).2.2 other hother last
      (by rw [List.concat_eq_append]; exact List.mem_append_right _ List.mem_cons_self)
    exact absurd (congrArg UInt64.toNat hnumber) (Nat.ne_of_lt hlt)

theorem rtake_eq_self {capacity : ℕ} {blocks : List (CachedBlock Rest Body)}
    (hcapacity : blocks.length ≤ capacity) :
    blocks.rtake (min blocks.length (BlockCache.effectiveCapacity capacity)) = blocks := by
  rw [Nat.min_eq_left (le_effectiveCapacity hcapacity), List.rtake, Nat.sub_self, List.drop_zero]

/-- When the newest blocks of a file are restored. Assumes: RLP decoding undoes encoding and refuses
an encoding cut short; a file whose blocks are in ascending order. The condition is that no block is
beyond the configured capacity, and that the count and the lengths fit the file and the hashes are
distinct. -/
theorem loadFromFile_newest_iff (hcodec : codec.Inverts) (hself : codec.SelfDelimiting)
    (saved : BlockCache Rest Body) (hascending : Ascending saved.drainBlocks) (capacity : ℕ) :
    RestoresNewest saved.drainBlocks capacity
        ((BlockCache.new capacity).loadFromFile codec (some (saved.saveToFile codec))).2 ↔
      saved.drainBlocks.length ≤ capacity ∧ saved.drainBlocks.length < 2 ^ 32 ∧
        (∀ block ∈ saved.drainBlocks, Storable codec block) ∧
        (saved.drainBlocks.map CachedBlock.hash).Nodup := by
  rw [BlockCache.saveToFile, loadFromFile_loadable hcodec hself]
  constructor
  · intro hrestores
    cases hlast : saved.drainBlocks.getLast? with
    | none =>
      rw [List.getLast?_eq_none_iff.mp hlast]
      exact ⟨Nat.zero_le _, by norm_num, List.forall_mem_nil _, List.nodup_nil⟩
    | some block =>
      obtain ⟨number, hhighest, -, hheader⟩ :=
        latest_eq_some_iff.mp (hrestores.latest block hlast)
      have hnumber : block.header.number = number := by
        rw [insertAll_new] at hheader
        exact ((coherentWith_after capacity _).header_at hheader).choose_spec.2
      have hkeys := hhighest.1
      rw [insertAll_eq, ← hnumber] at hkeys
      -- nothing but the loaded blocks is in the restored cache, so the last one was loaded
      have hmem : block.header.number ∈
          (loadable codec capacity saved.drainBlocks).map fun block ↦ block.header.number := by
        rcases LruCache.mem_keys_of_mem_pushAll hkeys with hnew | hloaded
        · exact absurd hnew List.not_mem_nil
        · rwa [List.map_map] at hloaded
      have hall := hascending.eq_of_getLast_mem (loadable_isPrefix codec capacity _) hlast hmem
      obtain ⟨hcapacity, hcount, hstorable⟩ := loadable_eq_self_iff.mp hall
      refine ⟨hcapacity, hcount, hstorable, ?_⟩
      have hholds := hrestores.holds
      rw [rtake_eq_self hcapacity] at hholds
      refine (List.Nodup.of_map _ hascending.nodup_numbers).map_on fun first hfirst second hsecond
        hhash ↦ hascending.eq_of_number_eq hfirst hsecond ?_
      have hfirstHeader := (hholds.headersByHash _ _).mpr ⟨first, hfirst, rfl, rfl⟩
      have hsecondHeader := (hholds.headersByHash _ _).mpr ⟨second, hsecond, rfl, rfl⟩
      rw [hhash, hsecondHeader, Option.some_inj] at hfirstHeader
      rw [hfirstHeader]
  · rintro ⟨hcapacity, hcount, hstorable, hhashes⟩
    have hall : loadable codec capacity saved.drainBlocks = saved.drainBlocks :=
      loadable_eq_self_iff.mpr ⟨hcapacity, hcount, hstorable⟩
    have hholds := holdsExactly_insertAll hascending hhashes (le_effectiveCapacity hcapacity)
    show RestoresNewest _ _ ((BlockCache.new capacity).insertAll
      (loadable codec capacity saved.drainBlocks))
    rw [hall]
    refine ⟨by rwa [rtake_eq_self hcapacity], fun block hlast ↦ ?_⟩
    exact hholds.latest (List.mem_of_getLast? hlast) (hascending.le_getLast hlast)

/-- Two blocks, restored under a capacity of two. -/
theorem loadFromFile_newest_of_two :
    let saved : BlockCache Unit UInt8 := .after 3
      [.insert (.repeatByte 1) ⟨.repeatByte 0, 1, 12, ()⟩ 1,
        .insert (.repeatByte 2) ⟨.repeatByte 1, 2, 24, ()⟩ 2]
    RestoresNewest saved.drainBlocks 2
      ((BlockCache.new 2).loadFromFile fixedRlp (some (saved.saveToFile fixedRlp))).2 :=
  (loadFromFile_newest_iff fixedRlp_inverts fixedRlp_selfDelimiting _
    (coherentWith_after 3 _).ascending_drainBlocks 2).mpr
    ⟨by decide, by decide, fun block _ ↦ storable_fixedRlp block, by decide⟩

/-- The same file under a capacity of one: the lower block is restored, and the latest one is
lost. -/
theorem loadFromFile_loses_newest :
    let saved : BlockCache Unit UInt8 := .after 3
      [.insert (.repeatByte 1) ⟨.repeatByte 0, 1, 12, ()⟩ 1,
        .insert (.repeatByte 2) ⟨.repeatByte 1, 2, 24, ()⟩ 2]
    Ascending saved.drainBlocks ∧ ¬ RestoresNewest saved.drainBlocks 1
      ((BlockCache.new 1).loadFromFile fixedRlp (some (saved.saveToFile fixedRlp))).2 := by
  intro saved
  refine ⟨(coherentWith_after 3 _).ascending_drainBlocks, fun hrestores ↦ ?_⟩
  rw [BlockCache.saveToFile, loadFromFile_fileBytes fixedRlp_inverts _
    fun block _ ↦ storable_fixedRlp block] at hrestores
  have hlatest := hrestores.latest ⟨.repeatByte 2, ⟨.repeatByte 1, 2, 24, ()⟩, 2⟩ rfl
  exact absurd hlatest (by decide)

end Newest

end SentryNode
