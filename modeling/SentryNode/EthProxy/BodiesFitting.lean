import SentryNode.EthProxy.BodiesMerge

/-!
# Duplicate-free requests that fit the cache

For a request without repetitions, of at most as many hashes as the cache holds bodies, the two
passes of lookups before the fetch make every cached body of the request more recent than every
unrelated entry. The merge then finds absent exactly the hashes that were absent at the start
(`mergeMisses_eq_uncachedHashes`), and every body it places stays until its end
(`peek_mergeBodies_of_placed`).

Against an honest and complete peer the request is answered in full, is wholly cached afterwards,
and the same request is then answered from the cache alone (`getBlockBodies_complete`). Against an
honest peer that leaves bodies out, the cache stays right exactly when the bodies left out are the
last ones (`getBlockBodies_short_right_iff`), because the merge pairs by position.
-/

set_option autoImplicit false
set_option relaxedAutoImplicit false

namespace SentryNode.EthProxy

open Library Library.Recency

variable {Rest Body : Type*}

/-! ### The hashes the merge misses -/

theorem mem_cachedHashes_iff {cache : BlockCache Rest Body} {request : List B256} {hash : B256}
    (hhash : hash ∈ request) :
    hash ∈ (request.filter (· ∈ cache.bodiesByHash.keys)).reverse ↔
      hash ∈ cache.bodiesByHash.keys := by
  simp [hhash]

theorem cachedHashes_subset (cache : BlockCache Rest Body) (request : List B256) :
    (request.filter (· ∈ cache.bodiesByHash.keys)).reverse ⊆ request := fun _ hhash ↦
  List.mem_of_mem_filter (List.mem_reverse.mp hhash)

/-- Nothing changes between the two tests of a hash. Assumes: a duplicate-free request that fits. -/
theorem mergeMisses_eq_uncachedHashes {cache : BlockCache Rest Body} {request : List B256}
    (hnodup : request.Nodup) (hfits : request.length ≤ cache.bodiesByHash.capacity) :
    mergeMisses cache request = uncachedHashes cache request :=
  windowMisses_eq_filter hnodup hfits (cachedHashes_subset cache request)
    fun _ hhash ↦ mem_cachedHashes_iff hhash

/-! ### What the merge keeps -/

/-- A loop that never runs out of fetched bodies places one for every requested hash. Assumes: at
least as many fetched bodies as hashes missed. -/
theorem map_fst_mergePlaced (hashes : List B256) {state : MergeState Rest Body}
    {history : List B256}
    (hkeys : state.cache.bodiesByHash.keys = window state.cache.bodiesByHash.capacity history)
    (henough : (windowMisses state.cache.bodiesByHash.capacity history hashes).length ≤
      state.fetchIter.length) :
    (mergePlaced state hashes).map Prod.fst = hashes := by
  induction hashes generalizing state history with
  | nil => rfl
  | cons hash hashes ih =>
    obtain ⟨body, hnext, hrest⟩ : ∃ body, state.next hash = some body ∧
        (windowMisses (mergeStep state hash).cache.bodiesByHash.capacity (hash :: history)
          hashes).length ≤ (mergeStep state hash).fetchIter.length := by
      cases hbody : state.cache.bodiesByHash.peek hash with
      | some body =>
        have hmem : hash ∈ state.cache.bodiesByHash.keys := LruCache.mem_keys_iff.mpr ⟨body, hbody⟩
        rw [windowMisses, if_pos (hkeys ▸ hmem)] at henough
        refine ⟨body, by rw [MergeState.next, hbody, Option.some_or], ?_⟩
        rwa [capacity_mergeStep, mergeStep_of_cached hbody]
      | none =>
        have hmem : hash ∉ state.cache.bodiesByHash.keys := LruCache.peek_eq_none_iff.mp hbody
        rw [windowMisses, if_neg (hkeys ▸ hmem), List.length_cons] at henough
        obtain ⟨body, fetchIter, hfetch⟩ : ∃ body fetchIter, state.fetchIter = body :: fetchIter :=
          List.exists_cons_of_length_pos (by omega)
        refine ⟨body, by simp [MergeState.next, hbody, hfetch], ?_⟩
        rw [hfetch, List.length_cons] at henough
        rw [capacity_mergeStep, mergeStep_of_fetched hbody hfetch]
        exact Nat.le_of_succ_le_succ henough
    rw [mergePlaced, hnext, List.map_append, ih (keys_mergeStep_window hnext hkeys) hrest]
    rfl

/-- The hashes of the bodies placed are requested ones, in the order of the request. -/
theorem map_fst_mergePlaced_sublist (hashes : List B256) (state : MergeState Rest Body) :
    ((mergePlaced state hashes).map Prod.fst).Sublist hashes := by
  induction hashes generalizing state with
  | nil => exact List.Sublist.refl _
  | cons hash hashes ih =>
    rw [mergePlaced, List.map_append]
    cases state.next hash with
    | none => exact (ih _).cons hash
    | some body => exact (ih _).cons_cons hash

/-- Bodies placed stay. Assumes: a duplicate-free rest of a trace that fits the capacity, after
accesses inside the trace, each access so far being one of `done` or of the earlier history. What is
cached under a hash of `done` is still there at the end, and so is every body placed. -/
theorem peek_foldl_mergeStep {trace earlier : List B256} (hashes : List B256)
    {state : MergeState Rest Body} {done : List B256}
    (hkeys : state.cache.bodiesByHash.keys =
      window state.cache.bodiesByHash.capacity (done ++ earlier))
    (hfits : trace.length ≤ state.cache.bodiesByHash.capacity) (hdone : done ⊆ trace)
    (hhashes : hashes ⊆ trace) (hnodup : hashes.Nodup) (hfresh : ∀ hash ∈ hashes, hash ∉ done) :
    (∀ hash ∈ done, ∀ body, state.cache.bodiesByHash.peek hash = some body →
        (hashes.foldl mergeStep state).cache.bodiesByHash.peek hash = some body) ∧
      ∀ placed ∈ mergePlaced state hashes,
        (hashes.foldl mergeStep state).cache.bodiesByHash.peek placed.1 = some placed.2 := by
  induction hashes generalizing state done with
  | nil => exact ⟨fun _ _ _ hbody ↦ hbody, fun _ hplaced ↦ absurd hplaced List.not_mem_nil⟩
  | cons hash hashes ih =>
    obtain ⟨hhash, hrest⟩ := List.cons_subset.mp hhashes
    obtain ⟨hnotMem, hnodupRest⟩ := List.nodup_cons.mp hnodup
    rw [List.foldl_cons, mergePlaced]
    cases hnext : state.next hash with
    | none =>
      rw [mergeStep_of_next_none hnext]
      exact ih hkeys hfits hdone hrest hnodupRest fun other hother ↦
        hfresh other (List.mem_cons_of_mem _ hother)
    | some body =>
      have hkeysNext := keys_mergeStep_window hnext hkeys
      have hdoneNext : hash :: done ⊆ trace := List.cons_subset.mpr ⟨hhash, hdone⟩
      have hfitsNext : trace.length ≤ (mergeStep state hash).cache.bodiesByHash.capacity := by
        rwa [capacity_mergeStep]
      have hfreshNext : ∀ other ∈ hashes, other ∉ hash :: done := fun other hother hmem ↦ by
        rcases List.mem_cons.mp hmem with h | h
        · exact hnotMem (h ▸ hother)
        · exact hfresh other (List.mem_cons_of_mem _ hother) h
      obtain ⟨hkept, hplaced⟩ := ih hkeysNext hfitsNext hdoneNext hrest hnodupRest hfreshNext
      refine ⟨fun other hother found hfound ↦ hkept other (List.mem_cons_of_mem _ hother) found ?_,
        fun placed hmem ↦ ?_⟩
      · -- The hash is among the last distinct ones, which all fit, so it was not evicted.
        have hresident : other ∈ (mergeStep state hash).cache.bodiesByHash.keys := by
          rw [hkeysNext]
          exact mem_window_append earlier (List.mem_cons_of_mem hash hother)
            ((length_recencyOrder_le hdoneNext).trans hfitsNext)
        obtain ⟨kept, hpeek⟩ := LruCache.mem_keys_iff.mp hresident
        have hne : other ≠ hash := fun h ↦ hfresh hash List.mem_cons_self (h ▸ hother)
        have hsame := peek_of_peek_mergeStep hne hpeek
        rw [hfound, Option.some_inj] at hsame
        rw [hpeek, hsame]
      · rcases List.mem_cons.mp hmem with h | h
        · rw [h]
          exact hkept hash List.mem_cons_self body (peek_mergeStep_self hnext)
        · exact hplaced placed h

/-- Every body placed for a fitting duplicate-free request is cached under its hash at the end. -/
theorem peek_mergeBodies_of_placed {cache : BlockCache Rest Body} {request : List B256}
    (hnodup : request.Nodup) (hfits : request.length ≤ cache.bodiesByHash.capacity)
    (fetchedBodies : List Body) :
    ∀ placed ∈ mergePlaced (.start (fetchingCache cache request) fetchedBodies) request,
      (mergeBodies (fetchingCache cache request) request
        fetchedBodies).cache.bodiesByHash.peek placed.1 = some placed.2 := by
  have hkeys : (fetchingCache cache request).bodiesByHash.keys =
      window (fetchingCache cache request).bodiesByHash.capacity
        ([] ++ mergeHistory cache request) := by
    rw [capacity_fetchingCache]
    exact keys_fetchingCache cache request
  rw [← capacity_fetchingCache cache request] at hfits
  exact (peek_foldl_mergeStep request hkeys hfits (List.nil_subset _)
    (List.Subset.refl _) hnodup fun _ _ ↦ List.not_mem_nil).2

/-! ### Complete answers -/

/-- A list paired position by position with the values of a function is a prefix of them. -/
theorem forall_zip_iff_initial {Key Value : Type*} {value : Key → Value} {keys : List Key}
    {values : List Value} (hlength : values.length ≤ keys.length) :
    (∀ pair ∈ keys.zip values, pair.2 = value pair.1) ↔ values <+: keys.map value := by
  induction values generalizing keys with
  | nil => simp
  | cons first values ih =>
    cases keys with
    | nil => exact absurd hlength (Nat.not_succ_le_zero _)
    | cons key keys =>
      rw [List.zip_cons_cons, List.forall_mem_cons, List.map_cons, List.cons_prefix_cons,
        ih (Nat.le_of_succ_le_succ hlength)]

/-- A body found in a right cache is the body of its hash. -/
theorem peek_of_right {bodyOf : B256 → Body} {cache : BlockCache Rest Body} {hash : B256}
    (hright : BodiesRight bodyOf cache) (hhash : hash ∈ cache.bodiesByHash.keys) :
    cache.bodiesByHash.peek hash = some (bodyOf hash) := by
  obtain ⟨body, hpeek⟩ := LruCache.mem_keys_iff.mp hhash
  exact hpeek.trans (congrArg some (hright _ (LruCache.peek_eq_some_iff.mp hpeek)))

/-- Requested bodies found in a right cache are the bodies of the request. -/
theorem filterMap_peek_of_right {bodyOf : B256 → Body} {cache : BlockCache Rest Body}
    {request : List B256} (hright : BodiesRight bodyOf cache)
    (hcached : uncachedHashes cache request = []) :
    request.filterMap cache.bodiesByHash.peek = request.map bodyOf := by
  rw [← List.filterMap_eq_map]
  exact List.filterMap_congr fun hash hhash ↦
    peek_of_right hright (uncachedHashes_eq_nil_iff.mp hcached hash hhash)

/-- A right cache that holds every requested body answers without a fetch. -/
theorem getBlockBodies_of_cached {bodyOf : B256 → Body} (peer : List B256 → Option (List Body))
    {cache : BlockCache Rest Body} {request : List B256} (hright : BodiesRight bodyOf cache)
    (hcached : uncachedHashes cache request = []) :
    getBlockBodies peer cache request =
      { response := request.map bodyOf, cache := promoteBodies cache request, asked := none } := by
  simp only [getBlockBodies, beginBodies_of_cached hcached, filterMap_peek_of_right hright hcached]

/-- The merge of a fitting duplicate-free request, against the bodies of its uncached hashes, places
the right body for every requested hash. -/
theorem mergePlaced_complete {bodyOf : B256 → Body} {cache : BlockCache Rest Body}
    {request : List B256} (hright : BodiesRight bodyOf cache) (hnodup : request.Nodup)
    (hfits : request.length ≤ cache.bodiesByHash.capacity) :
    mergePlaced (.start (fetchingCache cache request) ((uncachedHashes cache request).map bodyOf))
      request = request.map fun hash ↦ (hash, bodyOf hash) := by
  have hmisses := mergeMisses_eq_uncachedHashes hnodup hfits
  have hkeys := keys_fetchingCache cache request
  rw [← capacity_fetchingCache cache request] at hkeys
  have hhashes : (mergePlaced (.start (fetchingCache cache request)
      ((uncachedHashes cache request).map bodyOf)) request).map Prod.fst = request := by
    refine map_fst_mergePlaced request hkeys ?_
    rw [mergeMisses, ← capacity_fetchingCache cache request] at hmisses
    exact (congrArg List.length hmisses).le.trans (List.length_map _).ge
  have hplaced := (mergePlaced_fetchingCache_right_iff hright request
    ((uncachedHashes cache request).map bodyOf)).mpr (by
      rw [hmisses]
      exact (forall_zip_iff_initial (List.length_map _).le).mpr (List.prefix_refl _))
  conv_rhs => rw [← hhashes, List.map_map]
  refine (List.map_id _).symm.trans (List.map_congr_left fun placed hmem ↦ ?_)
  exact Prod.ext rfl (hplaced placed hmem)

/-- A well-behaved request is answered in full and cached. Assumes: a right cache, a duplicate-free
request that fits it, an honest and complete peer. The response is the requested
bodies in the order of the request, each is in the cache afterwards, and the same request is then
answered from the cache alone, with the same response, whatever a peer would say. -/
theorem getBlockBodies_complete (bodyOf : B256 → Body) (cache : BlockCache Rest Body)
    (request : List B256) (hright : BodiesRight bodyOf cache) (hnodup : request.Nodup)
    (hfits : request.length ≤ cache.bodiesByHash.capacity) :
    (getBlockBodies (honestPeer bodyOf) cache request).response = request.map bodyOf ∧
      (∀ hash ∈ request, (getBlockBodies (honestPeer bodyOf) cache
        request).cache.bodiesByHash.peek hash = some (bodyOf hash)) ∧
      ∀ peer, (getBlockBodies peer (getBlockBodies (honestPeer bodyOf) cache request).cache
          request).asked = none ∧
        (getBlockBodies peer (getBlockBodies (honestPeer bodyOf) cache request).cache
          request).response = request.map bodyOf := by
  have hmapSnd : (request.map fun hash ↦ (hash, bodyOf hash)).map Prod.snd =
      request.map bodyOf := by
    rw [List.map_map]
    rfl
  -- In both branches the placed bodies are those of the request, and they are cached at the end.
  obtain ⟨hplaced, hcached⟩ : placedBodies (honestPeer bodyOf) cache request =
        request.map (fun hash ↦ (hash, bodyOf hash)) ∧
      ∀ hash ∈ request, (getBlockBodies (honestPeer bodyOf) cache
        request).cache.bodiesByHash.peek hash = some (bodyOf hash) := by
    by_cases hall : uncachedHashes cache request = []
    · have hpeek : ∀ hash ∈ request, cache.bodiesByHash.peek hash = some (bodyOf hash) :=
        fun hash hhash ↦ peek_of_right hright (uncachedHashes_eq_nil_iff.mp hall hash hhash)
      simp only [placedBodies, beginBodies_of_cached hall, getBlockBodies_of_cached _ hright hall,
        promoteBodies, LruCache.peek_promoteAll]
      refine ⟨?_, hpeek⟩
      rw [resolvePlaced, ← List.filterMap_eq_map]
      exact List.filterMap_congr fun hash hhash ↦ by rw [hpeek hash hhash]; rfl
    · have hmerge := mergePlaced_complete hright hnodup hfits
      have hkept := peek_mergeBodies_of_placed hnodup hfits
        ((uncachedHashes cache request).map bodyOf)
      rw [hmerge, List.forall_mem_map] at hkept
      simp only [placedBodies, getBlockBodies, beginBodies_of_uncached hall, honestPeer,
        finishBodies]
      exact ⟨hmerge, hkept⟩
  have hrightAfter := bodiesRight_getBlockBodies (honestPeer bodyOf) hright (by
    rw [hplaced, List.forall_mem_map]
    exact fun _ _ ↦ rfl)
  have hnone :
      uncachedHashes (getBlockBodies (honestPeer bodyOf) cache request).cache request = [] :=
    uncachedHashes_eq_nil_iff.mpr fun hash hhash ↦ LruCache.mem_keys_iff.mpr ⟨_, hcached hash hhash⟩
  refine ⟨by rw [response_getBlockBodies, hplaced, hmapSnd], hcached, fun peer ↦ ?_⟩
  rw [getBlockBodies_of_cached peer hrightAfter hnone]
  exact ⟨rfl, rfl⟩

/-- A full cache of two blocks, one of them requested. -/
theorem getBlockBodies_complete_full :
    let cache : BlockCache Unit (List UInt8) :=
      ((.new 2 : BlockCache Unit (List UInt8)).insertBody (.repeatByte 1)
        (List.replicate 32 1)).insertBody (.repeatByte 2) (List.replicate 32 2)
    let request : List B256 := [.repeatByte 3, .repeatByte 1]
    (getBlockBodies (honestPeer B256.bytes) cache request).response = request.map B256.bytes :=
  (getBlockBodies_complete B256.bytes _ _ (by decide) (by decide) (by decide)).1

/-! ### Short answers -/

/-- When an honest peer that leaves bodies out keeps the cache right. Assumes: a right cache, a
duplicate-free request that fits it, and an answer made of the bodies of some of the missing hashes,
in order. The cache stays right and the response is the bodies of some of the requested hashes, in
order, exactly when the bodies left out are the last ones: the answer is an initial segment of the
bodies asked for. -/
theorem getBlockBodies_short_right_iff (bodyOf : B256 → Body) (cache : BlockCache Rest Body)
    (request known : List B256) (peer : List B256 → Option (List Body))
    (hright : BodiesRight bodyOf cache) (hnodup : request.Nodup)
    (hfits : request.length ≤ cache.bodiesByHash.capacity)
    (hknown : known.Sublist (uncachedHashes cache request))
    (hpeer : peer (uncachedHashes cache request) = some (known.map bodyOf)) :
    (BodiesRight bodyOf (getBlockBodies peer cache request).cache ∧
        ∃ served : List B256, served.Sublist request ∧
          (getBlockBodies peer cache request).response = served.map bodyOf) ↔
      known.map bodyOf <+: (uncachedHashes cache request).map bodyOf := by
  by_cases hall : uncachedHashes cache request = []
  · rw [hall] at hknown
    rw [List.sublist_nil.mp hknown, getBlockBodies_of_cached peer hright hall]
    exact iff_of_true ⟨(bodiesRight_promoteBodies request).mpr hright, request,
      List.Sublist.refl _, rfl⟩ (List.nil_prefix)
  · have hlength : (known.map bodyOf).length ≤ (uncachedHashes cache request).length := by
      rw [List.length_map]
      exact hknown.length_le
    have hplacedBodies : placedBodies peer cache request =
        mergePlaced (.start (fetchingCache cache request) (known.map bodyOf)) request := by
      simp only [placedBodies, beginBodies_of_uncached hall, hpeer]
      rfl
    have hcache : (getBlockBodies peer cache request).cache =
        (mergeBodies (fetchingCache cache request) request (known.map bodyOf)).cache := by
      simp only [getBlockBodies, beginBodies_of_uncached hall, hpeer, finishBodies]
      rfl
    have hplaced := mergePlaced_fetchingCache_right_iff hright request (known.map bodyOf)
    rw [mergeMisses_eq_uncachedHashes hnodup hfits, forall_zip_iff_initial hlength,
      ← hplacedBodies] at hplaced
    rw [← hplaced]
    constructor
    · -- What was placed is still cached, so a right cache shows that it was placed right.
      rintro ⟨hrightAfter, -⟩ placed hmem
      have hkept := peek_mergeBodies_of_placed hnodup hfits (known.map bodyOf) placed
        (hplacedBodies ▸ hmem)
      rw [← hcache] at hkept
      exact hrightAfter _ (LruCache.peek_eq_some_iff.mp hkept)
    · intro hplacedRight
      refine ⟨bodiesRight_getBlockBodies peer hright hplacedRight,
        (placedBodies peer cache request).map Prod.fst, ?_, ?_⟩
      · rw [hplacedBodies]
        exact map_fst_mergePlaced_sublist request _
      · rw [response_getBlockBodies, List.map_map]
        exact List.map_congr_left hplacedRight

/-- A peer that leaves out the second of two bodies. -/
theorem getBlockBodies_short_right_tail :
    BodiesRight B256.bytes (getBlockBodies (fun _ ↦ some [List.replicate 32 1])
      (.new 2 : BlockCache Unit (List UInt8)) [.repeatByte 1, .repeatByte 2]).cache :=
  ((getBlockBodies_short_right_iff B256.bytes (.new 2) [.repeatByte 1, .repeatByte 2]
    [.repeatByte 1] (fun _ ↦ some [List.replicate 32 1]) (by decide) (by decide) (by decide)
    (by decide) (by decide)).mpr (by decide)).1

/-- A peer that leaves out the first of two bodies: the other one is cached under the hash of the
first. -/
theorem getBlockBodies_poisoned_by_short_answer :
    let cache : BlockCache Unit (List UInt8) := .new 2
    let request : List B256 := [.repeatByte 1, .repeatByte 2]
    let peer : List B256 → Option (List (List UInt8)) := fun _ ↦ some [List.replicate 32 2]
    BodiesRight B256.bytes cache ∧ request.Nodup ∧ request.length ≤ cache.bodiesByHash.capacity ∧
      (∃ known : List B256, known.Sublist (uncachedHashes cache request) ∧
        peer (uncachedHashes cache request) = some (known.map B256.bytes)) ∧
      ¬ BodiesRight B256.bytes (getBlockBodies peer cache request).cache :=
  ⟨by decide, by decide, by decide, ⟨[.repeatByte 2], by decide, by decide⟩, by decide⟩

end SentryNode.EthProxy
