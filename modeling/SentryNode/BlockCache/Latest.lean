import SentryNode.BlockCache.History

/-!
# The latest cached block

`latest` takes its maximum over the hashes by number and then reads the header from the headers by
number. A header lookup promotes only in the second map, so the two maps can come to hold different
numbers, and `latest` then finds no header at its maximum, or a higher header stays unseen.

`latestIsHighest_iff` is the exact condition: after any history, `latest` is the highest header the
cache can serve exactly when the two maps have the same highest number.
-/

set_option autoImplicit false
set_option relaxedAutoImplicit false

namespace SentryNode

open Library

variable {Rest Body : Type*}

/-- The highest of some block numbers. -/
def IsHighest (numbers : List UInt64) (number : UInt64) : Prop :=
  number ∈ numbers ∧ ∀ other ∈ numbers, other.toNat ≤ number.toNat

theorem IsHighest.unique {numbers : List UInt64} {first second : UInt64}
    (hfirst : IsHighest numbers first) (hsecond : IsHighest numbers second) : first = second :=
  UInt64.toNat_inj.mp (le_antisymm (hsecond.2 first hfirst.1) (hfirst.2 second hsecond.1))

/-- `latest` is none only when no header can be found by number, and otherwise it is the highest
header that can, with its own hash. -/
def LatestIsHighest (hashOf : Header Rest → B256) (cache : BlockCache Rest Body) : Prop :=
  (cache.latest = none → cache.headersByNumber.keys = []) ∧
    ∀ hash header, cache.latest = some (hash, header) →
      IsHighest cache.headersByNumber.keys header.number ∧
        cache.headersByNumber.peek header.number = some header ∧ hash = hashOf header

/-- The entry that `latest` selects. -/
theorem isHighest_of_argmax {cache : BlockCache Rest Body} {number : UInt64} {hash : B256}
    (hmax : cache.hashByNumber.entries.argmax (fun entry ↦ entry.1.toNat) = some (number, hash)) :
    IsHighest cache.hashByNumber.keys number ∧ cache.hashByNumber.peek number = some hash := by
  have hmem := List.argmax_mem hmax
  refine ⟨⟨List.mem_map_of_mem hmem, fun other hother ↦ ?_⟩, LruCache.peek_eq_some_iff.mpr hmem⟩
  obtain ⟨entry, hentry, rfl⟩ := List.mem_map.mp hother
  exact List.le_of_mem_argmax (f := fun entry : UInt64 × B256 ↦ entry.1.toNat) hentry hmax

theorem latest_eq_some_iff {cache : BlockCache Rest Body} {hash : B256} {header : Header Rest} :
    cache.latest = some (hash, header) ↔
      ∃ number, IsHighest cache.hashByNumber.keys number ∧
        cache.hashByNumber.peek number = some hash ∧
        cache.headersByNumber.peek number = some header := by
  constructor
  · intro hlatest
    obtain ⟨⟨number, found⟩, hmax, hmap⟩ := Option.bind_eq_some_iff.mp hlatest
    obtain ⟨other, hpeek, heq⟩ := Option.map_eq_some_iff.mp hmap
    obtain ⟨rfl, rfl⟩ := Prod.mk.inj heq
    obtain ⟨hhighest, hhash⟩ := isHighest_of_argmax hmax
    exact ⟨number, hhighest, hhash, hpeek⟩
  · rintro ⟨number, hhighest, hhash, hpeek⟩
    cases hmax : cache.hashByNumber.entries.argmax (fun entry ↦ entry.1.toNat) with
    | none =>
      rw [List.argmax_eq_none] at hmax
      have hempty := hhighest.1
      rw [LruCache.keys, hmax] at hempty
      exact absurd hempty List.not_mem_nil
    | some entry =>
      obtain ⟨other, found⟩ := entry
      obtain ⟨hother, hfound⟩ := isHighest_of_argmax hmax
      obtain rfl : other = number := hother.unique hhighest
      rw [hhash, Option.some_inj] at hfound
      simp only [BlockCache.latest, hmax, Option.bind_some, hpeek, Option.map_some, hfound]

theorem exists_isHighest {numbers : List UInt64} (hnumbers : numbers ≠ []) :
    ∃ number, IsHighest numbers number := by
  cases hmax : numbers.argmax UInt64.toNat with
  | none => exact absurd (List.argmax_eq_none.mp hmax) hnumbers
  | some number =>
    exact ⟨number, List.argmax_mem hmax, fun other hother ↦ List.le_of_mem_argmax hother hmax⟩

/-- A cache that knows no header by number knows no hash by number. -/
theorem CoherentWith.hashByNumber_keys_eq_nil {capacity : ℕ} {ops : List (CacheOp Rest Body)}
    {cache : BlockCache Rest Body} (hcache : CoherentWith capacity ops cache)
    (hempty : cache.headersByNumber.keys = []) : cache.hashByNumber.keys = [] := by
  refine List.eq_nil_iff_forall_not_mem.mpr fun number hnumber ↦ ?_
  obtain ⟨hash, hpeek⟩ := LruCache.mem_keys_iff.mp hnumber
  obtain ⟨write, hlast, -⟩ := Option.map_eq_some_iff.mp (hcache.hashByNumber number hash hpeek)
  have hwrite := (mem_of_lastInsertedAt hlast).1
  rw [hcache.some_header hempty] at hwrite
  exact absurd hwrite List.not_mem_nil

/-- When `latest` is the highest header that can be found by number. Assumes: a history that inserts
headers under their true hashes. After it, the condition is that a number is the highest one in the
hashes by number exactly when it is the highest one in the headers by number. -/
theorem latestIsHighest_iff (hashOf : Header Rest → B256) (capacity : ℕ)
    (ops : List (CacheOp Rest Body)) (htrue : TrueHashes hashOf ops) :
    LatestIsHighest hashOf (BlockCache.after capacity ops) ↔
      ∀ number, IsHighest (BlockCache.after capacity ops).hashByNumber.keys number ↔
        IsHighest (BlockCache.after capacity ops).headersByNumber.keys number := by
  have hcache := coherentWith_after capacity ops
  constructor
  · rintro ⟨hnone, hsome⟩ number
    cases hlatest : (BlockCache.after capacity ops).latest with
    | none =>
      rw [hcache.hashByNumber_keys_eq_nil (hnone hlatest), hnone hlatest]
    | some found =>
      obtain ⟨highest, hhashes, -, hheader⟩ := latest_eq_some_iff.mp hlatest
      obtain ⟨-, -, hnumber⟩ := hcache.header_at hheader
      have hheaders := (hsome found.1 found.2 hlatest).1
      rw [hnumber] at hheaders
      exact ⟨fun h ↦ h.unique hhashes ▸ hheaders, fun h ↦ h.unique hheaders ▸ hhashes⟩
  · intro hsame
    constructor
    · intro hlatest
      by_contra hheaders
      obtain ⟨number, hhighest⟩ := exists_isHighest hheaders
      obtain ⟨header, hheader⟩ := LruCache.mem_keys_iff.mp hhighest.1
      have hhashes := (hsame number).mpr hhighest
      obtain ⟨hash, hhash⟩ := LruCache.mem_keys_iff.mp hhashes.1
      rw [latest_eq_some_iff.mpr ⟨number, hhashes, hhash, hheader⟩] at hlatest
      cases hlatest
    · intro hash header hlatest
      obtain ⟨number, hhashes, hhash, hheader⟩ := latest_eq_some_iff.mp hlatest
      obtain ⟨-, -, hnumber⟩ := hcache.header_at hheader
      rw [hnumber]
      exact ⟨(hsame number).mp hhashes, hheader, hcache.hash_eq htrue hhash hheader⟩

/-- Two blocks in a cache of two, without lookups. -/
theorem latestIsHighest_of_inserts :
    LatestIsHighest (fun header : Header UInt8 ↦ .repeatByte header.rest) (BlockCache.after 2
      [.insert (.repeatByte 1) ⟨.repeatByte 0, 1, 12, 1⟩ (),
        .insert (.repeatByte 2) ⟨.repeatByte 1, 2, 24, 2⟩ ()]) :=
  (latestIsHighest_iff _ 2 _ (by decide)).mpr fun _ ↦ Iff.rfl

/-- A header lookup and an older header fetched for a peer, in a full cache of two: the maps by
number evict different blocks, and `latest` is none although headers can be found by number. -/
theorem latest_none_after_lookup :
    let ops : List (CacheOp UInt8 Unit) :=
      [.insert (.repeatByte 1) ⟨.repeatByte 0, 1, 12, 1⟩ (),
        .insert (.repeatByte 2) ⟨.repeatByte 1, 2, 24, 2⟩ (),
        .getHeaderByNumber 1,
        .insertHeader (.repeatByte 0) ⟨.repeatByte 9, 0, 0, 0⟩]
    TrueHashes (fun header ↦ .repeatByte header.rest) ops ∧
      ¬ LatestIsHighest (fun header ↦ .repeatByte header.rest) (BlockCache.after 2 ops) :=
  ⟨by decide, fun hlatest ↦ absurd (hlatest.1 (by decide)) (by decide)⟩

end SentryNode
