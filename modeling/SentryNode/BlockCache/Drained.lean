import SentryNode.BlockCache.File
import SentryNode.BlockCache.History

/-!
# The blocks written to disk

`drainBlocks` goes through the hashes by number and joins each with a header by number and a body by
hash. Its blocks are in ascending order of their numbers, without repetitions and no more of them
than the capacity (`ascending_drainBlocks`, `length_drainBlocks_le`), and without a hash collision
among the inserted headers their hashes are distinct as well.

A block that peers can still fetch by its hash is among them only if its number leads to it:
`savesAllComplete_iff` is the exact condition. It fails for a block whose height has been written
again since, and for one whose number has been evicted before its hash.
-/

set_option autoImplicit false
set_option relaxedAutoImplicit false

namespace SentryNode

open Library

/-! ### What is drained -/

section Drained

variable {Rest Body : Type*}

/-- Strictly ascending block numbers. -/
def Ascending (blocks : List (CachedBlock Rest Body)) : Prop :=
  blocks.Pairwise fun first second ↦ first.header.number.toNat < second.header.number.toNat

theorem mem_drainBlocks_iff {cache : BlockCache Rest Body} {block : CachedBlock Rest Body} :
    block ∈ cache.drainBlocks ↔ ∃ number, cache.hashByNumber.peek number = some block.hash ∧
      cache.headersByNumber.peek number = some block.header ∧
      cache.bodiesByHash.peek block.hash = some block.body := by
  constructor
  · exact mem_drainBlocks
  · rintro ⟨number, hhash, hheader, hbody⟩
    refine (List.mem_insertionSort _).mpr (List.mem_filterMap.mpr ⟨(number, block.hash), ?_, ?_⟩)
    · exact LruCache.peek_eq_some_iff.mp hhash
    · simp only [hheader, hbody, Option.bind_some, Option.map_some]

/-- Sorting leaves the blocks in ascending order. -/
theorem pairwise_drainBlocks (cache : BlockCache Rest Body) :
    cache.drainBlocks.Pairwise fun first second ↦
      first.header.number ≤ second.header.number := by
  have htotal : Std.Total fun first second : CachedBlock Rest Body ↦
      first.header.number ≤ second.header.number := ⟨fun _ _ ↦ UInt64.le_total _ _⟩
  have htrans : IsTrans (CachedBlock Rest Body) fun first second ↦
      first.header.number ≤ second.header.number := ⟨fun _ _ _ ↦ UInt64.le_trans⟩
  exact List.pairwise_insertionSort _ _

theorem length_drainBlocks_le_entries (cache : BlockCache Rest Body) :
    cache.drainBlocks.length ≤ cache.hashByNumber.entries.length := by
  rw [BlockCache.drainBlocks, List.length_insertionSort]
  exact List.length_filterMap_le _ _

variable {capacity : ℕ} {ops : List (CacheOp Rest Body)} {cache : BlockCache Rest Body}

theorem length_drainBlocks_le (hcache : CoherentWith capacity ops cache) :
    cache.drainBlocks.length ≤ BlockCache.effectiveCapacity capacity :=
  Nat.le_trans (length_drainBlocks_le_entries cache)
    (hcache.capacity_hashByNumber ▸ cache.hashByNumber.length_le)

/-- A drained block is found under its own number. -/
theorem CoherentWith.drained_at (hcache : CoherentWith capacity ops cache)
    {block : CachedBlock Rest Body} (hblock : block ∈ cache.drainBlocks) :
    cache.hashByNumber.peek block.header.number = some block.hash ∧
      cache.headersByNumber.peek block.header.number = some block.header ∧
      cache.bodiesByHash.peek block.hash = some block.body := by
  obtain ⟨number, hhash, hheader, hbody⟩ := mem_drainBlocks hblock
  obtain ⟨-, -, hnumber⟩ := hcache.header_at hheader
  subst hnumber
  exact ⟨hhash, hheader, hbody⟩

theorem CoherentWith.eq_of_number_eq (hcache : CoherentWith capacity ops cache)
    {first second : CachedBlock Rest Body} (hfirst : first ∈ cache.drainBlocks)
    (hsecond : second ∈ cache.drainBlocks)
    (hnumber : first.header.number = second.header.number) : first = second := by
  obtain ⟨hhash₁, hheader₁, hbody₁⟩ := hcache.drained_at hfirst
  obtain ⟨hhash₂, hheader₂, hbody₂⟩ := hcache.drained_at hsecond
  obtain ⟨hash₁, header₁, body₁⟩ := first
  obtain ⟨hash₂, header₂, body₂⟩ := second
  dsimp only at *
  rw [hnumber, hhash₂, Option.some_inj] at hhash₁
  rw [hnumber, hheader₂, Option.some_inj] at hheader₁
  subst hhash₁ hheader₁
  rw [hbody₂, Option.some_inj] at hbody₁
  rw [hbody₁]

theorem CoherentWith.nodup_drainBlocks (hcache : CoherentWith capacity ops cache) :
    cache.drainBlocks.Nodup := by
  refine (List.perm_insertionSort _ _).nodup_iff.mpr (List.Nodup.filterMap ?_ ?_)
  · rintro ⟨first, hash⟩ ⟨second, other⟩ block hfirst hsecond
    obtain ⟨header, hheader, hbody⟩ := Option.bind_eq_some_iff.mp hfirst
    obtain ⟨header', hheader', hbody'⟩ := Option.bind_eq_some_iff.mp hsecond
    obtain ⟨body, -, rfl⟩ := Option.map_eq_some_iff.mp hbody
    obtain ⟨body', -, heq⟩ := Option.map_eq_some_iff.mp hbody'
    obtain ⟨rfl, rfl, -⟩ := CachedBlock.mk.inj heq
    obtain ⟨-, -, rfl⟩ := hcache.header_at hheader
    obtain ⟨-, -, rfl⟩ := hcache.header_at hheader'
    rfl
  · exact List.Nodup.of_map Prod.fst cache.hashByNumber.nodup_keys

/-- The drained blocks are in the order of the file. -/
theorem CoherentWith.ascending_drainBlocks (hcache : CoherentWith capacity ops cache) :
    Ascending cache.drainBlocks := by
  have hnumbers : (cache.drainBlocks.map fun block ↦ block.header.number).Nodup :=
    hcache.nodup_drainBlocks.map_on fun _ hfirst _ hsecond ↦
      hcache.eq_of_number_eq hfirst hsecond
  refine (pairwise_drainBlocks cache).imp₂ ?_ (List.pairwise_map.mp hnumbers)
  intro first second hle hne
  exact Nat.lt_of_le_of_ne (UInt64.le_iff_toNat_le.mp hle) (mt UInt64.toNat_inj.mp hne)

/-- No two of the headers of a history have the same hash. -/
def CollisionFree (hashOf : Header Rest → B256) (ops : List (CacheOp Rest Body)) : Prop :=
  ∀ first ∈ headerWrites ops, ∀ second ∈ headerWrites ops,
    hashOf first.2 = hashOf second.2 → first.2 = second.2

instance [DecidableEq Rest] (hashOf : Header Rest → B256) (ops : List (CacheOp Rest Body)) :
    Decidable (CollisionFree hashOf ops) :=
  inferInstanceAs (Decidable (∀ first ∈ _, ∀ second ∈ _, _ → _))

theorem CoherentWith.nodup_hashes_drainBlocks {hashOf : Header Rest → B256}
    (hcache : CoherentWith capacity ops cache) (htrue : TrueHashes hashOf ops)
    (hcollision : CollisionFree hashOf ops) :
    (cache.drainBlocks.map CachedBlock.hash).Nodup := by
  refine hcache.nodup_drainBlocks.map_on fun first hfirst second hsecond hhash ↦ ?_
  obtain ⟨hhash₁, hheader₁, -⟩ := hcache.drained_at hfirst
  obtain ⟨hhash₂, hheader₂, -⟩ := hcache.drained_at hsecond
  obtain ⟨_, hlast₁, -⟩ := hcache.header_at hheader₁
  obtain ⟨_, hlast₂, -⟩ := hcache.header_at hheader₂
  rw [hcache.hash_eq htrue hhash₁ hheader₁, hcache.hash_eq htrue hhash₂ hheader₂] at hhash
  refine hcache.eq_of_number_eq hfirst hsecond (congrArg Header.number ?_)
  exact hcollision _ (mem_of_lastInsertedAt hlast₁).1 _ (mem_of_lastInsertedAt hlast₂).1 hhash

end Drained

/-! ### What is saved -/

section Saved

variable {Rest Body : Type}

/-- The file is that of some blocks, this one among them. -/
def FileContains (codec : BlockRlp Rest Body) (file : List UInt8)
    (block : CachedBlock Rest Body) : Prop :=
  ∃ before after, file = fileBytes codec (before ++ block :: after)

theorem fileContains_saveToFile (codec : BlockRlp Rest Body) {cache : BlockCache Rest Body}
    {block : CachedBlock Rest Body} (hblock : block ∈ cache.drainBlocks) :
    FileContains codec (cache.saveToFile codec) block := by
  obtain ⟨before, after, hblocks⟩ := List.append_of_mem hblock
  exact ⟨before, after, by rw [BlockCache.saveToFile, hblocks]⟩

/-- Every block whose header and body are found by its hash is drained and saved. -/
def SavesAllComplete (codec : BlockRlp Rest Body) (cache : BlockCache Rest Body) : Prop :=
  ∀ hash header body, (cache.getHeaderByHash hash).1 = some header →
    (cache.getBodyByHash hash).1 = some body →
    ⟨hash, header, body⟩ ∈ cache.drainBlocks ∧
      FileContains codec (cache.saveToFile codec) ⟨hash, header, body⟩

/-- When saving loses no complete block. After any history, the condition is that every block found
whole by its hash is the one inserted last at its number, and its number has been evicted from
neither of the maps by number. -/
theorem savesAllComplete_iff (codec : BlockRlp Rest Body) (capacity : ℕ)
    (ops : List (CacheOp Rest Body)) :
    SavesAllComplete codec (BlockCache.after capacity ops) ↔
      ∀ hash header, (BlockCache.after capacity ops).headersByHash.peek hash = some header →
        hash ∈ (BlockCache.after capacity ops).bodiesByHash.keys →
        lastInsertedAt ops header.number = some (hash, header) ∧
          header.number ∈ (BlockCache.after capacity ops).headersByNumber.keys ∧
          header.number ∈ (BlockCache.after capacity ops).hashByNumber.keys := by
  have hcache := coherentWith_after capacity ops
  constructor
  · intro hsaves hash header hheader hbody
    obtain ⟨body, hbody⟩ := LruCache.mem_keys_iff.mp hbody
    obtain ⟨hhash, hnumber, -⟩ := hcache.drained_at (hsaves hash header body hheader hbody).1
    obtain ⟨other, hlast, -⟩ := hcache.header_at hnumber
    obtain ⟨⟨last, lastHeader⟩, hlastHash, heq⟩ :=
      Option.map_eq_some_iff.mp (hcache.hashByNumber _ _ hhash)
    rw [hlast, Option.some_inj, Prod.mk.injEq] at hlastHash
    refine ⟨?_, LruCache.mem_keys_iff.mpr ⟨_, hnumber⟩, LruCache.mem_keys_iff.mpr ⟨_, hhash⟩⟩
    rw [hlast, hlastHash.1]
    exact congrArg (fun found ↦ some (found, header)) heq
  · intro hcondition hash header body hheader hbody
    obtain ⟨hlast, hnumber, hhash⟩ :=
      hcondition hash header hheader (LruCache.mem_keys_iff.mpr ⟨body, hbody⟩)
    obtain ⟨found, hnumber⟩ := LruCache.mem_keys_iff.mp hnumber
    obtain ⟨foundHash, hhash⟩ := LruCache.mem_keys_iff.mp hhash
    have hfound := hcache.headersByNumber _ _ hnumber
    have hfoundHash := hcache.hashByNumber _ _ hhash
    rw [Function.comp_apply, hlast, Option.map_some, Option.some_inj] at hfound hfoundHash
    have hdrained : (⟨hash, header, body⟩ : CachedBlock Rest Body) ∈
        (BlockCache.after capacity ops).drainBlocks := by
      refine mem_drainBlocks_iff.mpr ⟨header.number, ?_, ?_, hbody⟩
      · rw [hhash, ← hfoundHash]
      · rw [hnumber, ← hfound]
    exact ⟨hdrained, fileContains_saveToFile codec hdrained⟩

/-- A competing block of the same height hides the first one from the file, while peers can still
fetch the first one by its hash. -/
theorem saving_loses_competitor :
    let ops : List (CacheOp Unit UInt8) :=
      [.insert (.repeatByte 1) ⟨.repeatByte 0, 5, 60, ()⟩ 1,
        .insert (.repeatByte 2) ⟨.repeatByte 0, 5, 61, ()⟩ 2]
    TrueHashes (fun header ↦ .repeatByte (header.timestamp.toUInt8 - 59)) ops ∧
      ¬ SavesAllComplete fixedRlp (BlockCache.after 2 ops) := by
  refine ⟨by decide, fun hsaves ↦ ?_⟩
  have hdrained := hsaves (.repeatByte 1) ⟨.repeatByte 0, 5, 60, ()⟩ 1 (by decide) (by decide)
  have hhash := ((coherentWith_after 2 _).drained_at hdrained.1).1
  exact absurd hhash (by decide)

end Saved

end SentryNode
