import Mathlib.Data.Set.Lattice
import SentryNode.BlockCache.Drained
import SentryNode.BlockCache.Latest

/-!
# The cache as a part of a collection

Whatever calls are made and whatever is evicted, a cache holds nothing but what was inserted. A
`Collection` is a set of headers and a set of bodies, each under its hash, and a cache is `PartOf`
it when it comes from a history that inserts members only. Every call that inserts members keeps it
so (`PartOf.apply`), and what a cache finds, and drains into its file, are members
(`PartOf.header_under`, `PartOf.header_at`, `PartOf.body_under`, `PartOf.drained`).
-/

set_option autoImplicit false
set_option relaxedAutoImplicit false

namespace SentryNode

open Library

variable {Rest Body : Type*}

/-- Headers and bodies with the hashes they belong to. -/
structure Collection (Rest Body : Type*) where
  headers : Set (B256 × Header Rest)
  bodies : Set (B256 × Body)

namespace Collection

/-- A call inserts members only. -/
structure Admits (collection : Collection Rest Body) (op : CacheOp Rest Body) : Prop where
  header : ∀ write, op.headerWrite = some write → write ∈ collection.headers
  body : ∀ write, op.bodyWrite = some write → write ∈ collection.bodies

/-- A block is a member with its header and its body. -/
structure HasBlock (collection : Collection Rest Body) (hash : B256) (header : Header Rest)
    (body : Body) : Prop where
  header : (hash, header) ∈ collection.headers
  body : (hash, body) ∈ collection.bodies

theorem admits_insert_iff {collection : Collection Rest Body} {hash : B256} {header : Header Rest}
    {body : Body} :
    collection.Admits (.insert hash header body) ↔ collection.HasBlock hash header body := by
  constructor
  · exact fun hadmits ↦ ⟨hadmits.header _ rfl, hadmits.body _ rfl⟩
  · rintro ⟨hheader, hbody⟩
    exact ⟨fun write hwrite ↦ Option.some.inj hwrite ▸ hheader,
      fun write hwrite ↦ Option.some.inj hwrite ▸ hbody⟩

theorem admits_insertHeader {collection : Collection Rest Body} {hash : B256}
    {header : Header Rest} (hmem : (hash, header) ∈ collection.headers) :
    collection.Admits (.insertHeader hash header) where
  header := fun _ hwrite ↦ Option.some.inj hwrite ▸ hmem
  body := fun _ hwrite ↦ nomatch hwrite

theorem admits_insertBody {collection : Collection Rest Body} {hash : B256} {body : Body}
    (hmem : (hash, body) ∈ collection.bodies) : collection.Admits (.insertBody hash body) where
  header := fun _ hwrite ↦ nomatch hwrite
  body := fun _ hwrite ↦ Option.some.inj hwrite ▸ hmem

end Collection

/-- The cache comes from a history that inserts members of a collection only. -/
def PartOf (collection : Collection Rest Body) (capacity : ℕ) (cache : BlockCache Rest Body) :
    Prop :=
  ∃ ops, CoherentWith capacity ops cache ∧ ∀ op ∈ ops, collection.Admits op

namespace PartOf

variable {collection : Collection Rest Body} {capacity : ℕ} {cache : BlockCache Rest Body}

theorem new (collection : Collection Rest Body) (capacity : ℕ) :
    PartOf collection capacity (.new capacity) :=
  ⟨[], coherentWith_new capacity, List.forall_mem_nil _⟩

theorem apply (hcache : PartOf collection capacity cache) {op : CacheOp Rest Body}
    (hop : collection.Admits op) : PartOf collection capacity (cache.apply op) := by
  obtain ⟨ops, hcoherent, hadmits⟩ := hcache
  refine ⟨ops ++ [op], hcoherent.apply op, fun other hother ↦ ?_⟩
  rcases List.mem_append.mp hother with hbefore | hlast
  · exact hadmits other hbefore
  · rwa [List.mem_singleton.mp hlast]

/-- A call that inserts nothing needs no member. -/
theorem lookup (hcache : PartOf collection capacity cache) {op : CacheOp Rest Body}
    (hheader : op.headerWrite = none) (hbody : op.bodyWrite = none) :
    PartOf collection capacity (cache.apply op) := by
  refine hcache.apply ⟨fun write hwrite ↦ ?_, fun write hwrite ↦ ?_⟩
  · rw [hheader] at hwrite
    cases hwrite
  · rw [hbody] at hwrite
    cases hwrite

theorem insertAll {Rest Body : Type} {collection : Collection Rest Body} {capacity : ℕ}
    {cache : BlockCache Rest Body} (hcache : PartOf collection capacity cache)
    {blocks : List (CachedBlock Rest Body)}
    (hblocks : ∀ block ∈ blocks, collection.HasBlock block.hash block.header block.body) :
    PartOf collection capacity (cache.insertAll blocks) := by
  induction blocks generalizing cache with
  | nil => exact hcache
  | cons block blocks ih =>
    obtain ⟨hblock, hrest⟩ := List.forall_mem_cons.mp hblocks
    exact ih (hcache.apply (Collection.admits_insert_iff.mpr hblock)) hrest

theorem mem_headers_of_mem_headerWrites {ops : List (CacheOp Rest Body)}
    (hadmits : ∀ op ∈ ops, collection.Admits op) {write : B256 × Header Rest}
    (hwrite : write ∈ headerWrites ops) : write ∈ collection.headers := by
  obtain ⟨op, hop, hheader⟩ := List.mem_filterMap.mp hwrite
  exact (hadmits op hop).header write hheader

/-- A header found by hash is a member under that hash. -/
theorem header_under (hcache : PartOf collection capacity cache) {hash : B256}
    {header : Header Rest} (hpeek : cache.headersByHash.peek hash = some header) :
    (hash, header) ∈ collection.headers := by
  obtain ⟨ops, hcoherent, hadmits⟩ := hcache
  exact mem_headers_of_mem_headerWrites hadmits
    (mem_of_lastWritten (hcoherent.headersByHash hash header hpeek))

/-- A header found by number has that number and is a member, and a hash found at the number is the
hash it is a member under. -/
theorem header_at (hcache : PartOf collection capacity cache) {number : UInt64}
    {header : Header Rest} (hpeek : cache.headersByNumber.peek number = some header) :
    header.number = number ∧ ∃ hash, (hash, header) ∈ collection.headers ∧
      ∀ found, cache.hashByNumber.peek number = some found → found = hash := by
  obtain ⟨ops, hcoherent, hadmits⟩ := hcache
  obtain ⟨hash, hlast, hnumber⟩ := hcoherent.header_at hpeek
  refine ⟨hnumber, hash,
    mem_headers_of_mem_headerWrites hadmits (mem_of_lastInsertedAt hlast).1, fun found hfound ↦ ?_⟩
  obtain ⟨write, hwrite, rfl⟩ :=
    Option.map_eq_some_iff.mp (hcoherent.hashByNumber number found hfound)
  rw [hlast, Option.some_inj] at hwrite
  rw [← hwrite]

/-- The latest block is a member, hash and header. -/
theorem latest (hcache : PartOf collection capacity cache) {hash : B256} {header : Header Rest}
    (hlatest : cache.latest = some (hash, header)) : (hash, header) ∈ collection.headers := by
  obtain ⟨number, -, hhash, hheader⟩ := latest_eq_some_iff.mp hlatest
  obtain ⟨-, found, hmem, hsame⟩ := hcache.header_at hheader
  rwa [hsame hash hhash]

/-- A body found by hash is a member under that hash. -/
theorem body_under (hcache : PartOf collection capacity cache) {hash : B256} {body : Body}
    (hpeek : cache.bodiesByHash.peek hash = some body) : (hash, body) ∈ collection.bodies := by
  obtain ⟨ops, hcoherent, hadmits⟩ := hcache
  obtain ⟨op, hop, hbody⟩ :=
    List.mem_filterMap.mp (mem_of_lastWritten (hcoherent.bodiesByHash hash body hpeek))
  exact (hadmits op hop).body _ hbody

/-- A drained block is a member, header and body. -/
theorem drained (hcache : PartOf collection capacity cache) {block : CachedBlock Rest Body}
    (hblock : block ∈ cache.drainBlocks) :
    collection.HasBlock block.hash block.header block.body := by
  obtain ⟨number, hhash, hheader, hbody⟩ := mem_drainBlocks hblock
  obtain ⟨-, hash, hmem, hsame⟩ := hcache.header_at hheader
  rw [← hsame _ hhash] at hmem
  exact ⟨hmem, hcache.body_under hbody⟩

end PartOf

end SentryNode
