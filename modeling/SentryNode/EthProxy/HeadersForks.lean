import SentryNode.BlockCache.History
import SentryNode.EthProxy.Headers

/-!
# Cached headers and competing blocks

The headers of an answer are read by number, and a number leads to the header inserted last at it.
Two consequences follow for a history with competing blocks.

A request by hash is turned into a number and then answered from the headers by number, so its first
header has the requested hash exactly when that block was the last one inserted at its number, as
long as both lookups find something (`resolveHeaders_starts_at_hash_iff`).

The neighbours of an answer without skip are the headers inserted last at two consecutive numbers
(`resolveHeaders_neighbours`). They are linked by the parent hash exactly when these two are, and
always when the inserted headers do not compete.
-/

set_option autoImplicit false
set_option relaxedAutoImplicit false

namespace SentryNode.EthProxy

open Library

variable {Rest Body : Type*} {hashOf : Header Rest → B256} {capacity : ℕ}
  {ops : List (CacheOp Rest Body)} {request : GetBlockHeaders}

/-! ### Headers by number -/

/-- A header found at a number is the one inserted last at it. -/
theorem lastInsertedAt_of_peek (htrue : TrueHashes hashOf ops) {number : UInt64}
    {header : Header Rest}
    (hpeek : (BlockCache.after capacity ops).headersByNumber.peek number = some header) :
    lastInsertedAt ops number = some (hashOf header, header) ∧ header.number = number := by
  obtain ⟨hash, hlast, hnumber⟩ := (coherentWith_after capacity ops).header_at hpeek
  have hhash : hash = hashOf header := htrue _ (mem_of_lastInsertedAt hlast).1
  exact ⟨hhash ▸ hlast, hnumber⟩

/-- The first header of an answer from the cache. -/
theorem head?_resolveHeadersFromCache (cache : BlockCache Rest Body)
    (hlimit : 0 < request.limit.toNat) :
    (resolveHeadersFromCache cache request).1.head? =
      (startAt cache request.startBlock).bind cache.headersByNumber.peek := by
  rw [resolveHeadersFromCache_fst, List.head?_map, cachedWalk, head?_walk hlimit, Option.map_bind]
  congr 1
  funext number
  exact (Option.map_map _ _ _).trans Option.map_id'

/-! ### Requests by hash -/

/-- When a hash leads to a header, and its number to one as well, the block of that hash is the one
inserted last at the number. -/
def HashStillLast (ops : List (CacheOp Rest Body)) (cache : BlockCache Rest Body) (hash : B256) :
    Prop :=
  ∀ header, cache.headersByHash.peek hash = some header →
    header.number ∈ cache.headersByNumber.keys →
    (lastInsertedAt ops header.number).map Prod.fst = some hash

/-- When a request by hash is answered from the cache with the block of that hash. Assumes: a
history that inserts headers under their true hashes, and a limit of one header or more. The first
header of the answer, if any, has the requested hash exactly when the block of the hash was not
overtaken by another one at its number. -/
theorem resolveHeaders_starts_at_hash_iff (hashOf : Header Rest → B256) (capacity : ℕ)
    (ops : List (CacheOp Rest Body)) (hash : B256) (request : GetBlockHeaders)
    (htrue : TrueHashes hashOf ops) (hstart : request.startBlock = .hash hash)
    (hlimit : 1 ≤ request.limit.toNat) :
    (∀ first, (resolveHeadersFromCache (BlockCache.after capacity ops) request).1.head? =
        some first → hashOf first = hash) ↔
      HashStillLast ops (BlockCache.after capacity ops) hash := by
  rw [head?_resolveHeadersFromCache _ hlimit, hstart]
  constructor
  · intro hfirst header hheader hnumber
    obtain ⟨first, hpeek⟩ := LruCache.mem_keys_iff.mp hnumber
    have hsame : hashOf first = hash := hfirst first (by
      rw [startAt, hheader, Option.map_some, Option.bind_some, hpeek])
    rw [(lastInsertedAt_of_peek htrue hpeek).1, Option.map_some, hsame]
  · intro hlast first hfirst
    obtain ⟨number, hnumber, hpeek⟩ := Option.bind_eq_some_iff.mp hfirst
    obtain ⟨header, hheader, rfl⟩ := Option.map_eq_some_iff.mp hnumber
    have hhash := hlast header hheader (LruCache.mem_keys_iff.mpr ⟨first, hpeek⟩)
    rw [(lastInsertedAt_of_peek htrue hpeek).1, Option.map_some, Option.some_inj] at hhash
    exact hhash

/-- Two blocks of one number, of which the later one is requested by its hash. -/
theorem resolveHeaders_starts_at_hash_of_later :
    let ops : List (CacheOp UInt8 Unit) :=
      [.insert (.repeatByte 1) ⟨.repeatByte 0, 5, 60, 1⟩ (),
        .insert (.repeatByte 2) ⟨.repeatByte 0, 5, 61, 2⟩ ()]
    ∀ first, (resolveHeadersFromCache (BlockCache.after 2 ops)
        ⟨.hash (.repeatByte 2), 1, 0, .rising⟩).1.head? = some first →
      B256.repeatByte first.rest = .repeatByte 2 :=
  (resolveHeaders_starts_at_hash_iff (fun header : Header UInt8 ↦ .repeatByte header.rest) 2 _
    (.repeatByte 2) _ (by decide) rfl (by decide)).mpr fun _ hheader _ ↦ by
      obtain rfl := Option.some.inj hheader
      decide

/-- Two blocks of one number: a request for the first by its hash is answered with the second. -/
theorem resolveHeaders_answers_with_competitor :
    let ops : List (CacheOp UInt8 Unit) :=
      [.insert (.repeatByte 1) ⟨.repeatByte 0, 5, 60, 1⟩ (),
        .insert (.repeatByte 2) ⟨.repeatByte 0, 5, 61, 2⟩ ()]
    TrueHashes (fun header ↦ .repeatByte header.rest) ops ∧
      ¬ ∀ first, (resolveHeadersFromCache (BlockCache.after 2 ops)
          ⟨.hash (.repeatByte 1), 1, 0, .rising⟩).1.head? = some first →
        B256.repeatByte first.rest = .repeatByte 1 :=
  ⟨by decide, fun hfirst ↦ absurd (hfirst ⟨.repeatByte 0, 5, 61, 2⟩ (by decide)) (by decide)⟩

/-! ### Neighbours -/

/-- A relation between a lower and an upper header, on two neighbours of an answer. -/
def Oriented (direction : HeadersDirection) (relation : Header Rest → Header Rest → Prop)
    (first second : Header Rest) : Prop :=
  match direction with
  | .rising => relation first second
  | .falling => relation second first

/-- A relation between the neighbours of an answer is weakened header by header. -/
theorem isChain_oriented_imp {direction : HeadersDirection}
    {relation other : Header Rest → Header Rest → Prop} {served : List (Header Rest)}
    (himp : ∀ lower ∈ served, ∀ upper ∈ served, relation lower upper → other lower upper)
    (hchain : served.IsChain (Oriented direction relation)) :
    served.IsChain (Oriented direction other) := by
  refine hchain.imp_of_mem_imp fun first second hfirst hsecond horiented ↦ ?_
  cases direction with
  | rising => exact himp first hfirst second hsecond horiented
  | falling => exact himp second hsecond first hfirst horiented

/-- The upper header names the lower one as its parent. -/
def Linked (hashOf : Header Rest → B256) (lower upper : Header Rest) : Prop :=
  hashOf lower = upper.parentHash

instance (hashOf : Header Rest → B256) (lower upper : Header Rest) :
    Decidable (Linked hashOf lower upper) := inferInstanceAs (Decidable (_ = _))

instance (relation : Header Rest → Header Rest → Prop) [DecidableRel relation] :
    ∀ direction, DecidableRel (Oriented direction relation)
  | .rising, first, second => inferInstanceAs (Decidable (relation first second))
  | .falling, first, second => inferInstanceAs (Decidable (relation second first))

/-- Of the headers inserted last at two numbers, the second names the first as its parent. -/
def LastLinked (ops : List (CacheOp Rest Body)) (lower upper : UInt64) : Prop :=
  ∀ last next, lastInsertedAt ops lower = some last → lastInsertedAt ops upper = some next →
    last.1 = next.2.parentHash

/-- The inserted headers do not compete: any two at consecutive numbers are linked. -/
def OneBranch (ops : List (CacheOp Rest Body)) : Prop :=
  ∀ lower ∈ headerWrites ops, ∀ upper ∈ headerWrites ops,
    lower.2.number.toNat + 1 = upper.2.number.toNat → lower.1 = upper.2.parentHash

instance (ops : List (CacheOp Rest Body)) : Decidable (OneBranch ops) :=
  inferInstanceAs (Decidable (∀ lower ∈ headerWrites ops, ∀ upper ∈ headerWrites ops, _ → _))

theorem stepOf_of_skip_eq_zero (hskip : request.skip = 0) : stepOf request = 1 := by
  rw [stepOf, hskip]
  rfl

/-- Consecutive numbers of an answer without skip. -/
theorem oriented_of_nextNumber {direction : HeadersDirection} {first second : Header Rest}
    (hnext : nextNumber direction 1 first.number = some second.number) :
    Oriented direction (fun lower upper ↦ lower.number.toNat + 1 = upper.number.toNat) first
      second := by
  cases direction with
  | rising => exact (checkedAdd_eq_some_iff.mp hnext).symm
  | falling => exact checkedSub_eq_some_iff.mp hnext

/-- Every header of an answer from the cache is the one inserted last at its number. -/
theorem lastInsertedAt_of_mem_resolveHeaders (htrue : TrueHashes hashOf ops) {header : Header Rest}
    (hheader : header ∈ (resolveHeadersFromCache (BlockCache.after capacity ops) request).1) :
    lastInsertedAt ops header.number = some (hashOf header, header) := by
  rw [resolveHeadersFromCache_fst] at hheader
  obtain ⟨entry, hentry, rfl⟩ := List.mem_map.mp hheader
  obtain ⟨hlast, hnumber⟩ := lastInsertedAt_of_peek htrue (lookup_of_mem_walk hentry)
  rw [hnumber]
  exact hlast

/-- The neighbours of an answer without skip are at consecutive numbers. -/
theorem isChain_resolveHeaders (htrue : TrueHashes hashOf ops) (hskip : request.skip = 0) :
    (resolveHeadersFromCache (BlockCache.after capacity ops) request).1.IsChain
      (Oriented request.direction fun lower upper ↦
        lower.number.toNat + 1 = upper.number.toNat) := by
  rw [resolveHeadersFromCache_fst, List.isChain_map]
  have hchain : (cachedWalk (BlockCache.after capacity ops) request).IsChain fun first second ↦
      nextNumber request.direction (stepOf request) first.1 = some second.1 := isChain_walk _ _
  refine hchain.imp_of_mem_imp fun first second hfirst hsecond hnext ↦ oriented_of_nextNumber ?_
  rw [(lastInsertedAt_of_peek htrue (lookup_of_mem_walk hfirst)).2,
    (lastInsertedAt_of_peek htrue (lookup_of_mem_walk hsecond)).2, ← hnext,
    stepOf_of_skip_eq_zero hskip]

/-- The neighbours of an answer from the cache. Assumes: a history that inserts headers under their
true hashes, and a request without skip. Every header of the answer is the one inserted last at its
number. Two neighbours are at consecutive numbers, and they are linked exactly when the headers
inserted last at these numbers are; in a history without competing headers, all of them are. -/
theorem resolveHeaders_neighbours (hashOf : Header Rest → B256) (capacity : ℕ)
    (ops : List (CacheOp Rest Body)) (request : GetBlockHeaders) (htrue : TrueHashes hashOf ops)
    (hskip : request.skip = 0) :
    let served := (resolveHeadersFromCache (BlockCache.after capacity ops) request).1
    (∀ header ∈ served, lastInsertedAt ops header.number = some (hashOf header, header)) ∧
      served.IsChain (Oriented request.direction fun lower upper ↦
        lower.number.toNat + 1 = upper.number.toNat ∧
          (Linked hashOf lower upper ↔ LastLinked ops lower.number upper.number)) ∧
      (OneBranch ops → served.IsChain (Oriented request.direction (Linked hashOf))) := by
  intro served
  have hlast : ∀ header ∈ served, lastInsertedAt ops header.number = some (hashOf header, header) :=
    fun _ hheader ↦ lastInsertedAt_of_mem_resolveHeaders htrue hheader
  have hchain : served.IsChain (Oriented request.direction fun lower upper ↦
      lower.number.toNat + 1 = upper.number.toNat) := isChain_resolveHeaders htrue hskip
  refine ⟨hlast,
    isChain_oriented_imp (fun lower hlower upper hupper hnumber ↦ ⟨hnumber, ?_⟩) hchain,
    fun hbranch ↦ isChain_oriented_imp (fun lower hlower upper hupper hnumber ↦ ?_) hchain⟩
  · constructor
    · intro hlinked last next hlower' hupper'
      rw [hlast lower hlower, Option.some_inj] at hlower'
      rw [hlast upper hupper, Option.some_inj] at hupper'
      rw [← hlower', ← hupper']
      exact hlinked
    · exact fun hlinked ↦ hlinked _ _ (hlast lower hlower) (hlast upper hupper)
  · exact hbranch _ (mem_of_lastInsertedAt (hlast lower hlower)).1 _
      (mem_of_lastInsertedAt (hlast upper hupper)).1 hnumber

/-- Two linked blocks, requested from the lower one upwards. -/
theorem resolveHeaders_neighbours_of_two :
    let ops : List (CacheOp UInt8 Unit) :=
      [.insert (.repeatByte 1) ⟨.repeatByte 0, 5, 60, 1⟩ (),
        .insert (.repeatByte 2) ⟨.repeatByte 1, 6, 72, 2⟩ ()]
    (resolveHeadersFromCache (BlockCache.after 2 ops) ⟨.number 5, 2, 0, .rising⟩).1.IsChain
      (Oriented .rising (Linked fun header ↦ .repeatByte header.rest)) :=
  (resolveHeaders_neighbours (fun header : Header UInt8 ↦ .repeatByte header.rest) 2 _
    ⟨.number 5, 2, 0, .rising⟩ (by decide) rfl).2.2 (by decide)

/-- A competing block of the lower number arrives last: it is served under a block that has another
parent. -/
theorem resolveHeaders_not_linked_after_fork :
    let ops : List (CacheOp UInt8 Unit) :=
      [.insert (.repeatByte 1) ⟨.repeatByte 0, 5, 60, 1⟩ (),
        .insert (.repeatByte 2) ⟨.repeatByte 1, 6, 72, 2⟩ (),
        .insert (.repeatByte 3) ⟨.repeatByte 0, 5, 61, 3⟩ ()]
    TrueHashes (fun header ↦ .repeatByte header.rest) ops ∧
      ¬ (resolveHeadersFromCache (BlockCache.after 4 ops) ⟨.number 5, 2, 0, .rising⟩).1.IsChain
        (Oriented .rising (Linked fun header ↦ .repeatByte header.rest)) :=
  ⟨by decide, by decide⟩

end SentryNode.EthProxy
