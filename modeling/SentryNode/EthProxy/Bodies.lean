import SentryNode.BlockCache

/-!
# Serving block bodies

The `GetBlockBodies` arm of the request handler. The requested bodies are first resolved from the
cache (`resolveBodiesFromCache`). When some are absent, the cache is asked again for the hashes to
fetch (`missingHashes`), an internet peer is asked for their bodies, and a merge loop walks the
request once more (`mergeBodies`): a body still in the cache is taken from there, any other is the
next one of the fetched list, which is cached under the hash the loop has reached.

The arm suspends in the fetch, so it is split there: `beginBodies` runs up to it and `finishBodies`
resumes with the answer. `getBlockBodies` puts the two together when nothing else touches the cache.

Every loop is followed by the statement of what it computes. The passes of lookups are filters of
the request (`resolveBodiesFromCache_eq`, `missingHashes_eq`). For the merge, `mergePlaced` lists
each body it pushes with the hash it is pushed for; `allBodies_mergeBodies` states that the response
is the second half of that list.
-/

set_option autoImplicit false
set_option relaxedAutoImplicit false

namespace SentryNode.EthProxy

open Library

variable {Rest Body : Type*}

/-! ### The loops -/

/-- One iteration of `resolve_bodies_from_cache`: the bodies found so far and the cache. -/
def resolveBodiesStep (state : List Body × BlockCache Rest Body) (hash : B256) :
    List Body × BlockCache Rest Body :=
  match state.2.getBodyByHash hash with
  | (some body, cache) => (state.1 ++ [body], cache)
  | (none, cache) => (state.1, cache)

/-- Resolve block bodies from the cache only. -/
def resolveBodiesFromCache (cache : BlockCache Rest Body) (hashes : List B256) :
    List Body × BlockCache Rest Body :=
  hashes.foldl resolveBodiesStep ([], cache)

/-- One test of the filter that collects `missing_hashes`. -/
def missingHashesStep (state : List B256 × BlockCache Rest Body) (hash : B256) :
    List B256 × BlockCache Rest Body :=
  match state.2.getBodyByHash hash with
  | (some _, cache) => (state.1, cache)
  | (none, cache) => (state.1 ++ [hash], cache)

/-- The requested hashes whose body the cache does not hold. -/
def missingHashes (cache : BlockCache Rest Body) (hashes : List B256) :
    List B256 × BlockCache Rest Body :=
  hashes.foldl missingHashesStep ([], cache)

/-- The state of the merge loop. -/
structure MergeState (Rest Body : Type*) where
  cache : BlockCache Rest Body
  fetchIter : List Body
  allBodies : List Body

/-- The merge loop before its first iteration. -/
def MergeState.start (cache : BlockCache Rest Body) (fetchedBodies : List Body) :
    MergeState Rest Body :=
  { cache, fetchIter := fetchedBodies, allBodies := [] }

/-- One iteration of the merge loop. -/
def mergeStep (state : MergeState Rest Body) (hash : B256) : MergeState Rest Body :=
  match state.cache.getBodyByHash hash with
  | (some body, cache) => { state with cache, allBodies := state.allBodies ++ [body] }
  | (none, cache) =>
    match state.fetchIter with
    | body :: fetchIter =>
      { cache := cache.insertBody hash body, fetchIter, allBodies := state.allBodies ++ [body] }
    | [] => { state with cache }

/-- The full response by combining the cache and the fetched bodies. -/
def mergeBodies (cache : BlockCache Rest Body) (hashes : List B256) (fetchedBodies : List Body) :
    MergeState Rest Body :=
  hashes.foldl mergeStep (.start cache fetchedBodies)

/-! ### The arm -/

/-- What the arm does before it can suspend: send a response, or fetch the missing hashes, keeping
the bodies it has for the case that the fetch fails. -/
inductive BodiesTurn (Body : Type*)
  | send (response : List Body)
  | fetch (missing : List B256) (bodies : List Body)

/-- The arm up to its fetch. -/
def beginBodies (cache : BlockCache Rest Body) (request : List B256) :
    BodiesTurn Body × BlockCache Rest Body :=
  let (bodies, cache) := resolveBodiesFromCache cache request
  if bodies.length = request.length ∧ 0 < request.length then (.send bodies, cache)
  else
    let (missing, cache) := missingHashes cache request
    if missing = [] then (.send bodies, cache) else (.fetch missing bodies, cache)

/-- The arm after its fetch. A failed fetch is `none`; its error is only logged. -/
def finishBodies (cache : BlockCache Rest Body) (request : List B256) (bodies : List Body) :
    Option (List Body) → List Body × BlockCache Rest Body
  | some fetchedBodies =>
    let merged := mergeBodies cache request fetchedBodies
    (merged.allBodies, merged.cache)
  | none => (bodies, cache)

/-- The response to a request, the cache after it, and the hashes asked of a peer, if any. -/
structure BodiesOutcome (Rest Body : Type*) where
  response : List Body
  cache : BlockCache Rest Body
  asked : Option (List B256)

/-- The arm run without interruption, against the answers of a peer. -/
def getBlockBodies (peer : List B256 → Option (List Body)) (cache : BlockCache Rest Body)
    (request : List B256) : BodiesOutcome Rest Body :=
  match beginBodies cache request with
  | (.send response, cache) => { response, cache, asked := none }
  | (.fetch missing bodies, cache) =>
    let (response, cache) := finishBodies cache request bodies (peer missing)
    { response, cache, asked := some missing }

/-! ### What the passes of lookups compute -/

/-- The cache after a lookup of every listed body. -/
def promoteBodies (cache : BlockCache Rest Body) (hashes : List B256) : BlockCache Rest Body :=
  { cache with bodiesByHash := cache.bodiesByHash.promoteAll hashes }

theorem peek_promoteBodies (cache : BlockCache Rest Body) (hashes : List B256) :
    (promoteBodies cache hashes).bodiesByHash.peek = cache.bodiesByHash.peek :=
  funext fun _ ↦ LruCache.peek_promoteAll _ _ _

theorem mem_keys_promoteBodies {cache : BlockCache Rest Body} {hashes : List B256} {hash : B256} :
    hash ∈ (promoteBodies cache hashes).bodiesByHash.keys ↔ hash ∈ cache.bodiesByHash.keys :=
  LruCache.mem_keys_promoteAll

theorem resolveBodiesStep_eq (cache : BlockCache Rest Body) (found : List Body) (hash : B256) :
    resolveBodiesStep (found, cache) hash =
      (found ++ (cache.bodiesByHash.peek hash).toList, promoteBodies cache [hash]) := by
  cases hbody : cache.bodiesByHash.peek hash with
  | none =>
    simp only [resolveBodiesStep, BlockCache.getBodyByHash, LruCache.get, hbody,
      Option.toList_none, List.append_nil]
    rfl
  | some body =>
    simp only [resolveBodiesStep, BlockCache.getBodyByHash, LruCache.get, hbody, Option.toList_some]
    rfl

theorem foldl_resolveBodiesStep (hashes : List B256) (cache : BlockCache Rest Body)
    (found : List Body) :
    hashes.foldl resolveBodiesStep (found, cache) =
      (found ++ hashes.filterMap cache.bodiesByHash.peek, promoteBodies cache hashes) := by
  induction hashes generalizing cache found with
  | nil =>
    rw [List.foldl_nil, List.filterMap_nil, List.append_nil]
    rfl
  | cons hash hashes ih =>
    have hcons : (hash :: hashes).filterMap cache.bodiesByHash.peek =
        (cache.bodiesByHash.peek hash).toList ++ hashes.filterMap cache.bodiesByHash.peek := by
      cases hbody : cache.bodiesByHash.peek hash with
      | none => rw [List.filterMap_cons_none hbody, Option.toList_none, List.nil_append]
      | some body => rw [List.filterMap_cons_some hbody, Option.toList_some, List.singleton_append]
    rw [List.foldl_cons, resolveBodiesStep_eq, ih, peek_promoteBodies, List.append_assoc, ← hcons]
    rfl

/-- The first pass finds the cached bodies of the request, in its order and with multiplicity. -/
theorem resolveBodiesFromCache_eq (cache : BlockCache Rest Body) (hashes : List B256) :
    resolveBodiesFromCache cache hashes =
      (hashes.filterMap cache.bodiesByHash.peek, promoteBodies cache hashes) :=
  foldl_resolveBodiesStep hashes cache []

theorem missingHashesStep_eq (cache : BlockCache Rest Body) (missing : List B256) (hash : B256) :
    missingHashesStep (missing, cache) hash =
      (missing ++ [hash].filter (· ∉ cache.bodiesByHash.keys), promoteBodies cache [hash]) := by
  cases hbody : cache.bodiesByHash.peek hash with
  | none =>
    have habsent := LruCache.peek_eq_none_iff.mp hbody
    rw [List.filter_cons_of_pos (by simpa using habsent), List.filter_nil]
    simp only [missingHashesStep, BlockCache.getBodyByHash, LruCache.get, hbody]
    rfl
  | some body =>
    have hcached := LruCache.mem_keys_iff.mpr ⟨body, hbody⟩
    rw [List.filter_cons_of_neg (by simpa using hcached), List.filter_nil, List.append_nil]
    simp only [missingHashesStep, BlockCache.getBodyByHash, LruCache.get, hbody]
    rfl

theorem foldl_missingHashesStep (hashes : List B256) (cache : BlockCache Rest Body)
    (missing : List B256) :
    hashes.foldl missingHashesStep (missing, cache) =
      (missing ++ hashes.filter (· ∉ cache.bodiesByHash.keys), promoteBodies cache hashes) := by
  induction hashes generalizing cache missing with
  | nil =>
    rw [List.foldl_nil, List.filter_nil, List.append_nil]
    rfl
  | cons hash hashes ih =>
    have hkeys : hashes.filter (· ∉ (promoteBodies cache [hash]).bodiesByHash.keys) =
        hashes.filter (· ∉ cache.bodiesByHash.keys) :=
      List.filter_congr fun other _ ↦ by simp only [mem_keys_promoteBodies]
    rw [List.foldl_cons, missingHashesStep_eq, ih, hkeys, List.append_assoc, ← List.filter_append,
      List.singleton_append]
    rfl

/-- The second pass finds the uncached hashes of the request. -/
theorem missingHashes_eq (cache : BlockCache Rest Body) (hashes : List B256) :
    missingHashes cache hashes =
      (hashes.filter (· ∉ cache.bodiesByHash.keys), promoteBodies cache hashes) :=
  foldl_missingHashesStep hashes cache []

/-! ### The arm up to its fetch -/

/-- The requested hashes whose body is not in the cache. -/
def uncachedHashes (cache : BlockCache Rest Body) (request : List B256) : List B256 :=
  request.filter (· ∉ cache.bodiesByHash.keys)

theorem uncachedHashes_eq_nil_iff {cache : BlockCache Rest Body} {request : List B256} :
    uncachedHashes cache request = [] ↔ ∀ hash ∈ request, hash ∈ cache.bodiesByHash.keys := by
  simp [uncachedHashes, List.filter_eq_nil_iff]

/-- The first pass finds a body for every requested hash exactly when none is uncached. -/
theorem length_resolved_eq_iff {cache : BlockCache Rest Body} {request : List B256} :
    (request.filterMap cache.bodiesByHash.peek).length = request.length ↔
      uncachedHashes cache request = [] := by
  rw [List.filterMap_length_eq_length, uncachedHashes_eq_nil_iff]
  simp only [LruCache.isSome_peek_iff]

theorem uncachedHashes_promoteBodies (cache : BlockCache Rest Body) (request hashes : List B256) :
    uncachedHashes (promoteBodies cache hashes) request = uncachedHashes cache request :=
  List.filter_congr fun hash _ ↦ by simp only [promoteBodies, LruCache.mem_keys_promoteAll]

/-- A request whose bodies are all cached is answered without a fetch. -/
theorem beginBodies_of_cached {cache : BlockCache Rest Body} {request : List B256}
    (hcached : uncachedHashes cache request = []) :
    beginBodies cache request =
      (.send (request.filterMap cache.bodiesByHash.peek), promoteBodies cache request) := by
  have hlength := length_resolved_eq_iff.mpr hcached
  have hmissing := missingHashes_eq (promoteBodies cache request) request
  rw [← uncachedHashes, uncachedHashes_promoteBodies, hcached] at hmissing
  cases request with
  | nil => rfl
  | cons hash hashes => simp [beginBodies, resolveBodiesFromCache_eq, hlength]

/-- A request with an uncached body goes to a peer, after two passes of lookups. -/
theorem beginBodies_of_uncached {cache : BlockCache Rest Body} {request : List B256}
    (huncached : uncachedHashes cache request ≠ []) :
    beginBodies cache request =
      (.fetch (uncachedHashes cache request) (request.filterMap cache.bodiesByHash.peek),
        promoteBodies (promoteBodies cache request) request) := by
  have hlength := mt length_resolved_eq_iff.mp huncached
  have hmissing := missingHashes_eq (promoteBodies cache request) request
  rw [← uncachedHashes, uncachedHashes_promoteBodies] at hmissing
  simp only [beginBodies, resolveBodiesFromCache_eq, hlength, false_and, if_false, hmissing,
    huncached]

end SentryNode.EthProxy
