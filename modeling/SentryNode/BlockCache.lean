import Mathlib.Data.List.MinMax
import Mathlib.Data.List.Sort
import SentryNode.Library.LruCache
import SentryNode.Primitives

/-!
# The block cache

`BlockCache` holds the blocks received in `NewBlock` messages and the headers and bodies fetched
for peers, in four independent least-recently-used maps behind one lock. Every method below is one
lock acquisition of the source. A lookup promotes the entry it finds, and only in the map it reads;
`latest` and `drainBlocks` read without promoting.
-/

set_option autoImplicit false
set_option relaxedAutoImplicit false

namespace SentryNode

open Library

/-- The number of blocks cached when none is configured. -/
def defaultCacheSize : ℕ := 256

/-- A cached block entry for persistence. -/
structure CachedBlock (Rest Body : Type*) where
  hash : B256
  header : Header Rest
  body : Body

/-- The cache: headers by hash and by number, hashes by number, bodies by hash, and the configured
capacity, which is kept beside the effective one of the maps. -/
structure BlockCache (Rest Body : Type*) where
  headersByHash : LruCache B256 (Header Rest)
  headersByNumber : LruCache UInt64 (Header Rest)
  hashByNumber : LruCache UInt64 B256
  bodiesByHash : LruCache B256 Body
  capacity : ℕ

namespace BlockCache

variable {Rest Body : Type*}

/-- The capacity of the maps: the configured one, or the default in place of zero. -/
def effectiveCapacity (capacity : ℕ) : ℕ := if capacity = 0 then defaultCacheSize else capacity

theorem effectiveCapacity_pos (capacity : ℕ) : 0 < effectiveCapacity capacity := by
  unfold effectiveCapacity defaultCacheSize
  split_ifs with hcapacity <;> omega

def new (capacity : ℕ) : BlockCache Rest Body where
  headersByHash := .new (effectiveCapacity capacity) (effectiveCapacity_pos capacity)
  headersByNumber := .new (effectiveCapacity capacity) (effectiveCapacity_pos capacity)
  hashByNumber := .new (effectiveCapacity capacity) (effectiveCapacity_pos capacity)
  bodiesByHash := .new (effectiveCapacity capacity) (effectiveCapacity_pos capacity)
  capacity := capacity

/-- Insert a block (header and body). -/
def insert (cache : BlockCache Rest Body) (hash : B256) (header : Header Rest) (body : Body) :
    BlockCache Rest Body where
  headersByHash := cache.headersByHash.push hash header
  headersByNumber := cache.headersByNumber.push header.number header
  hashByNumber := cache.hashByNumber.push header.number hash
  bodiesByHash := cache.bodiesByHash.push hash body
  capacity := cache.capacity

/-- Insert just a header (from a proxy response). -/
def insertHeader (cache : BlockCache Rest Body) (hash : B256) (header : Header Rest) :
    BlockCache Rest Body :=
  { cache with
    headersByHash := cache.headersByHash.push hash header
    headersByNumber := cache.headersByNumber.push header.number header
    hashByNumber := cache.hashByNumber.push header.number hash }

/-- Insert just a body (from a proxy response). -/
def insertBody (cache : BlockCache Rest Body) (hash : B256) (body : Body) : BlockCache Rest Body :=
  { cache with bodiesByHash := cache.bodiesByHash.push hash body }

def getHeaderByHash (cache : BlockCache Rest Body) (hash : B256) :
    Option (Header Rest) × BlockCache Rest Body :=
  let (header, headersByHash) := cache.headersByHash.get hash
  (header, { cache with headersByHash })

def getHeaderByNumber (cache : BlockCache Rest Body) (number : UInt64) :
    Option (Header Rest) × BlockCache Rest Body :=
  let (header, headersByNumber) := cache.headersByNumber.get number
  (header, { cache with headersByNumber })

def getBodyByHash (cache : BlockCache Rest Body) (hash : B256) :
    Option Body × BlockCache Rest Body :=
  let (body, bodiesByHash) := cache.bodiesByHash.get hash
  (body, { cache with bodiesByHash })

def getHashByNumber (cache : BlockCache Rest Body) (number : UInt64) :
    Option B256 × BlockCache Rest Body :=
  let (hash, hashByNumber) := cache.hashByNumber.get number
  (hash, { cache with hashByNumber })

/-- The latest (highest block number) cached block's header and hash. The maximum is taken over
`hashByNumber`, whose keys are distinct, and the header is read from `headersByNumber`. -/
def latest (cache : BlockCache Rest Body) : Option (B256 × Header Rest) :=
  (cache.hashByNumber.entries.argmax fun entry ↦ entry.1.toNat).bind fun (number, hash) ↦
    (cache.headersByNumber.peek number).map fun header ↦ (hash, header)

/-- All blocks of the cache (for saving), sorted by block number ascending. -/
def drainBlocks (cache : BlockCache Rest Body) : List (CachedBlock Rest Body) :=
  let blocks := cache.hashByNumber.entries.filterMap fun (number, hash) ↦
    (cache.headersByNumber.peek number).bind fun header ↦
      (cache.bodiesByHash.peek hash).map fun body ↦ { hash, header, body }
  blocks.insertionSort fun first second ↦ first.header.number ≤ second.header.number

/-- Each of the four maps has the same entries in both caches; the recency order may differ. -/
structure SameContents (first second : BlockCache Rest Body) : Prop where
  headersByHash : first.headersByHash.SameEntries second.headersByHash
  headersByNumber : first.headersByNumber.SameEntries second.headersByNumber
  hashByNumber : first.hashByNumber.SameEntries second.hashByNumber
  bodiesByHash : first.bodiesByHash.SameEntries second.bodiesByHash
  capacity : first.capacity = second.capacity

theorem SameContents.refl (cache : BlockCache Rest Body) : SameContents cache cache where
  headersByHash := .refl _
  headersByNumber := .refl _
  hashByNumber := .refl _
  bodiesByHash := .refl _
  capacity := rfl

theorem SameContents.trans {first second third : BlockCache Rest Body}
    (hfirst : SameContents first second) (hsecond : SameContents second third) :
    SameContents first third where
  headersByHash := hfirst.headersByHash.trans hsecond.headersByHash
  headersByNumber := hfirst.headersByNumber.trans hsecond.headersByNumber
  hashByNumber := hfirst.hashByNumber.trans hsecond.hashByNumber
  bodiesByHash := hfirst.bodiesByHash.trans hsecond.bodiesByHash
  capacity := hfirst.capacity.trans hsecond.capacity

/-- All four maps have a capacity. -/
structure HasCapacity (cache : BlockCache Rest Body) (capacity : ℕ) : Prop where
  headersByHash : cache.headersByHash.capacity = capacity
  headersByNumber : cache.headersByNumber.capacity = capacity
  hashByNumber : cache.hashByNumber.capacity = capacity
  bodiesByHash : cache.bodiesByHash.capacity = capacity

theorem hasCapacity_new (capacity : ℕ) :
    (new capacity : BlockCache Rest Body).HasCapacity (effectiveCapacity capacity) where
  headersByHash := rfl
  headersByNumber := rfl
  hashByNumber := rfl
  bodiesByHash := rfl

theorem SameContents.hasCapacity {first second : BlockCache Rest Body} {capacity : ℕ}
    (hsame : SameContents first second) (hfirst : first.HasCapacity capacity) :
    second.HasCapacity capacity where
  headersByHash := hsame.headersByHash.capacity_eq ▸ hfirst.headersByHash
  headersByNumber := hsame.headersByNumber.capacity_eq ▸ hfirst.headersByNumber
  hashByNumber := hsame.hashByNumber.capacity_eq ▸ hfirst.hashByNumber
  bodiesByHash := hsame.bodiesByHash.capacity_eq ▸ hfirst.bodiesByHash

end BlockCache

end SentryNode
