import SentryNode.BlockCache
import SentryNode.Library.Walk

/-!
# Serving block headers

The `GetBlockHeaders` arm of the request handler. A request is first resolved from the cache
(`resolveHeadersFromCache`): the start block gives a number, and from there the headers by number
are read one after the other, `skip + 1` apart, up to the limit or the first one absent. When
nothing is found, the request goes to an internet peer as a `HeadersRequest`, which has no field for
the skip; the fetched headers are cached under the hashes computed from them and sent on.

`resolveHeadersLoop_eq` states that the loop is a walk through the headers by number, and that
its lookups change the recency order only.
-/

set_option autoImplicit false
set_option relaxedAutoImplicit false

namespace SentryNode.EthProxy

open Library

variable {Rest Body : Type*}

/-! ### Checked numbers -/

/-- `u64::checked_add`. -/
def checkedAdd (first second : UInt64) : Option UInt64 :=
  if first.toNat + second.toNat < UInt64.size then some (first + second) else none

/-- `u64::checked_sub`. -/
def checkedSub (first second : UInt64) : Option UInt64 :=
  if second ≤ first then some (first - second) else none

theorem checkedAdd_eq_some_iff {first second sum : UInt64} :
    checkedAdd first second = some sum ↔ sum.toNat = first.toNat + second.toNat := by
  have hsum := sum.toNat_lt_size
  rw [checkedAdd, Option.ite_none_right_eq_some, Option.some_inj, ← UInt64.toNat_inj,
    UInt64.toNat_add]
  simp only [UInt64.size] at hsum ⊢
  omega

theorem checkedSub_eq_some_iff {first second difference : UInt64} :
    checkedSub first second = some difference ↔
      difference.toNat + second.toNat = first.toNat := by
  rw [checkedSub, Option.ite_none_right_eq_some, Option.some_inj, UInt64.le_iff_toNat_le]
  constructor
  · rintro ⟨hle, rfl⟩
    rw [UInt64.toNat_sub_of_le _ _ (UInt64.le_iff_toNat_le.mpr hle), Nat.sub_add_cancel hle]
  · intro hsum
    have hle : second.toNat ≤ first.toNat := hsum ▸ Nat.le_add_left _ _
    refine ⟨hle, UInt64.toNat_inj.mp ?_⟩
    rw [UInt64.toNat_sub_of_le _ _ (UInt64.le_iff_toNat_le.mpr hle), ← hsum, Nat.add_sub_cancel]

/-! ### The cache -/

/-- The number after the current one. -/
def nextNumber (direction : HeadersDirection) (step number : UInt64) : Option UInt64 :=
  if direction.isRising then checkedAdd number step else checkedSub number step

/-- The loop of `resolve_headers_from_cache`, with the number of iterations left. -/
def resolveHeadersLoop (direction : HeadersDirection) (step : UInt64) :
    ℕ → Option UInt64 → List (Header Rest) → BlockCache Rest Body →
      List (Header Rest) × BlockCache Rest Body
  | 0, _, headers, cache => (headers, cache)
  | _ + 1, none, headers, cache => (headers, cache)
  | left + 1, some number, headers, cache =>
    match cache.getHeaderByNumber number with
    | (some header, cache) =>
      resolveHeadersLoop direction step left (nextNumber direction step number)
        (headers ++ [header]) cache
    | (none, cache) => (headers, cache)

/-- The number to start at: a hash is looked up among the headers by hash. -/
def startNumber (cache : BlockCache Rest Body) :
    BlockHashOrNumber → Option UInt64 × BlockCache Rest Body
  | .number number => (some number, cache)
  | .hash hash =>
    let (header, cache) := cache.getHeaderByHash hash
    (header.map Header.number, cache)

/-- The distance between two headers of an answer. -/
def stepOf (request : GetBlockHeaders) : UInt64 := request.skip.toUInt64 + 1

/-- Resolve block headers from the cache only. -/
def resolveHeadersFromCache (cache : BlockCache Rest Body) (request : GetBlockHeaders) :
    List (Header Rest) × BlockCache Rest Body :=
  let (currentNumber, cache) := startNumber cache request.startBlock
  resolveHeadersLoop request.direction (stepOf request) request.limit.toNat currentNumber [] cache

/-! ### The arm -/

/-- The request for the internet peer. -/
def proxyRequest (request : GetBlockHeaders) : HeadersRequest where
  start := request.startBlock
  limit := request.limit
  direction := request.direction

/-- The response to a request, the cache after it, and the request put to a peer, if any. -/
structure HeadersOutcome (Rest Body : Type*) where
  response : List (Header Rest)
  cache : BlockCache Rest Body
  asked : Option HeadersRequest

/-- Cache the fetched headers. -/
def cacheHeaders (hashSlow : Header Rest → B256) (cache : BlockCache Rest Body)
    (fetchedHeaders : List (Header Rest)) : BlockCache Rest Body :=
  fetchedHeaders.foldl (fun cache header ↦ cache.insertHeader (hashSlow header) header) cache

/-- The arm, against the answers of a peer. A failed fetch is `none`. -/
def getBlockHeaders (hashSlow : Header Rest → B256)
    (peer : HeadersRequest → Option (List (Header Rest))) (cache : BlockCache Rest Body)
    (request : GetBlockHeaders) : HeadersOutcome Rest Body :=
  match resolveHeadersFromCache cache request with
  | (header :: headers, cache) => { response := header :: headers, cache, asked := none }
  | ([], cache) =>
    match peer (proxyRequest request) with
    | some fetchedHeaders =>
      { response := fetchedHeaders
        cache := cacheHeaders hashSlow cache fetchedHeaders
        asked := some (proxyRequest request) }
    | none => { response := [], cache, asked := some (proxyRequest request) }

/-! ### What the loop computes -/

/-- The number a request starts at. -/
def startAt (cache : BlockCache Rest Body) : BlockHashOrNumber → Option UInt64
  | .number number => some number
  | .hash hash => (cache.headersByHash.peek hash).map Header.number

/-- The headers found for a request, with the numbers they are found at. -/
def cachedWalk (cache : BlockCache Rest Body) (request : GetBlockHeaders) :
    List (UInt64 × Header Rest) :=
  walk (nextNumber request.direction (stepOf request)) cache.headersByNumber.peek
    request.limit.toNat (startAt cache request.startBlock)

theorem resolveHeadersLoop_eq (direction : HeadersDirection) (step : UInt64) (left : ℕ)
    (start : Option UInt64) (headers : List (Header Rest)) (cache : BlockCache Rest Body) :
    resolveHeadersLoop direction step left start headers cache =
      let found := walk (nextNumber direction step) cache.headersByNumber.peek left start
      (headers ++ found.map Prod.snd,
        { cache with
          headersByNumber := cache.headersByNumber.promoteAll (found.map Prod.fst) }) := by
  induction left generalizing start headers cache with
  | zero =>
    simp only [resolveHeadersLoop, walk_zero, List.map_nil, List.append_nil,
      LruCache.promoteAll_nil]
  | succ left ih =>
    cases start with
    | none =>
      simp only [resolveHeadersLoop, walk_none, List.map_nil, List.append_nil,
        LruCache.promoteAll_nil]
    | some number =>
      cases hheader : cache.headersByNumber.peek number with
      | none =>
        have habsent := LruCache.promote_of_not_mem (LruCache.peek_eq_none_iff.mp hheader)
        simp only [resolveHeadersLoop, BlockCache.getHeaderByNumber, LruCache.get, hheader, habsent,
          walk_of_none _ hheader, List.map_nil, List.append_nil, LruCache.promoteAll_nil]
      | some header =>
        have hpeek : (cache.headersByNumber.promote number).peek = cache.headersByNumber.peek :=
          funext fun other ↦ LruCache.peek_promote _ _ _
        simp only [resolveHeadersLoop, BlockCache.getHeaderByNumber, LruCache.get, hheader, ih,
          hpeek, walk_of_some _ hheader, List.map_cons, List.append_assoc, List.singleton_append,
          LruCache.promoteAll_cons]

/-- The headers found are a walk through the headers by number. -/
theorem resolveHeadersFromCache_fst (cache : BlockCache Rest Body) (request : GetBlockHeaders) :
    (resolveHeadersFromCache cache request).1 = (cachedWalk cache request).map Prod.snd := by
  cases hstart : request.startBlock with
  | number | hash =>
    simp only [resolveHeadersFromCache, hstart, startNumber, BlockCache.getHeaderByHash,
      resolveHeadersLoop_eq, List.nil_append, cachedWalk, startAt, LruCache.get]

/-! ### What the arm does -/

section Arm

variable {hashSlow : Header Rest → B256} {peer : HeadersRequest → Option (List (Header Rest))}
  {cache : BlockCache Rest Body} {request : GetBlockHeaders}

/-- A request that finds a header in the cache is answered from it. -/
theorem getBlockHeaders_of_cached (hcached : (resolveHeadersFromCache cache request).1 ≠ []) :
    getBlockHeaders hashSlow peer cache request =
      { response := (resolveHeadersFromCache cache request).1
        cache := (resolveHeadersFromCache cache request).2
        asked := none } := by
  unfold getBlockHeaders
  rcases hresolve : resolveHeadersFromCache cache request with ⟨- | ⟨header, headers⟩, next⟩
  · rw [hresolve] at hcached
    exact absurd rfl hcached
  · rfl

/-- A request the cache cannot answer gets the answer of the peer, as it is, and the headers of the
answer are cached. -/
theorem getBlockHeaders_of_fetched {fetched : List (Header Rest)}
    (huncached : (resolveHeadersFromCache cache request).1 = [])
    (hfetched : peer (proxyRequest request) = some fetched) :
    getBlockHeaders hashSlow peer cache request =
      { response := fetched
        cache := cacheHeaders hashSlow (resolveHeadersFromCache cache request).2 fetched
        asked := some (proxyRequest request) } := by
  unfold getBlockHeaders
  rcases hresolve : resolveHeadersFromCache cache request with ⟨- | ⟨header, headers⟩, next⟩
  · simp only [hfetched]
  · rw [hresolve] at huncached
    cases huncached

/-- A request the cache cannot answer gets the empty list when the fetch fails. -/
theorem getBlockHeaders_of_failed (huncached : (resolveHeadersFromCache cache request).1 = [])
    (hfailed : peer (proxyRequest request) = none) :
    getBlockHeaders hashSlow peer cache request =
      { response := []
        cache := (resolveHeadersFromCache cache request).2
        asked := some (proxyRequest request) } := by
  unfold getBlockHeaders
  rcases hresolve : resolveHeadersFromCache cache request with ⟨- | ⟨header, headers⟩, next⟩
  · simp only [hfailed]
  · rw [hresolve] at huncached
    cases huncached

end Arm

end SentryNode.EthProxy
